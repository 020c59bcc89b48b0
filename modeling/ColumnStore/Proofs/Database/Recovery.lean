/-
# Recovery

A log whose end is lost is opened with the groups that are whole, and nothing of the group that was
cut stays in it (`Database.openDirectory_cut`).  So whatever is added later comes directly behind
them, however often the end is lost (`Database.survives_crashes`).
-/

import ColumnStore.Proofs.Database.RoundTrip
import ColumnStore.Proofs.Disk.Blocks
import ColumnStore.Proofs.Disk.Changes
import ColumnStore.Proofs.Log.Cuts

namespace ColumnStore

/-! ## A checkpoint does not depend on the log -/

/-- No JSON text begins with the letter S. -/
theorem Json.parse?_letter (rest : Bytes) : Json.parse? (83 :: rest) = none := by
  have hvalue (n : Nat) (cs : List Char) : value? (n + 1) ('S' :: cs) = none := by
    rw [value?, skipSpace, List.dropWhile_cons_of_neg (by decide)]
    rfl
  rw [parse?, List.map_cons, show Char.ofNat (83 : UInt8).toNat = 'S' from rfl, List.length_cons]
  simp only [hvalue]
  rfl

namespace Log

theorem IsHeader.magic {b : Bytes} (h : IsHeader b) (rest : Bytes) :
    (b ++ rest).take 8 = FileKind.magic .log := by
  obtain ⟨header, hread⟩ := h.read rest
  exact FileHeader.magic_of_readKind hread

theorem IsHeader.parse?_eq_none {b : Bytes} (h : IsHeader b) (rest : Bytes) :
    Manifest.parse? (b ++ rest) = none := by
  have hmagic := h.magic rest
  have hlog : FileKind.magic .log = [83, 84, 82, 68, 66, 87, 65, 76] := by decide +kernel
  rw [hlog] at hmagic
  cases hb : b ++ rest with
  | nil =>
    rw [hb] at hmagic
    cases hmagic
  | cons x more =>
    rw [hb, List.take_succ_cons] at hmagic
    obtain ⟨rfl, -⟩ := List.cons.inj hmagic
    rw [Manifest.parse?, Json.parse?_letter]
    rfl

end Log

namespace Database

variable {d d' : Disk} {file : FileId} {es : List (LogEntry × Nat)} {policy : SegmentPolicy}

/-- **What is loaded does not depend on the log.** -/
theorem loadCheckpoint_apart {path : String} (h : Log.Holds d path file es)
    (hd : Disk.SameBut file d d') {r : Catalog × Nat × Stamp}
    (hload : loadCheckpoint d policy = .ok r) : loadCheckpoint d' policy = .ok r := by
  obtain ⟨header, body, hbytes, hheader, -⟩ := h.bytes
  obtain ⟨loaded, hl, hrest⟩ := bind_eq_ok.mp hload
  obtain ⟨manifest, hm, hl⟩ := bind_eq_ok.mp hl
  -- The manifest is no log, and neither is the block file that it names.
  have hmanifest : Checkpoint.currentManifest d' = .ok manifest := by
    rw [Checkpoint.currentManifest] at hm ⊢
    rw [hd.contains_eq]
    split at hm
    · rename_i hc
      obtain ⟨b, hb, hm⟩ := bind_eq_ok.mp hm
      have hne : d.find Manifest.path ≠ .ok file := by
        intro hf
        rw [Disk.read_of_find hf, hbytes, mapError_ok] at hb
        obtain rfl := Except.ok.inj hb
        rw [hheader.parse?_eq_none] at hm
        cases hm
      rw [if_pos hc, hd.read_eq hne, hb]
      exact hm
    · rename_i hc
      rw [if_neg hc]
      exact hm
  have hloaded : Checkpoint.load d' policy = .ok loaded := by
    rw [Checkpoint.load, hmanifest, ok_bind]
    cases manifest with
    | none => exact hl
    | some m =>
      obtain ⟨c, hc, hl⟩ := bind_eq_ok.mp hl
      obtain ⟨blocks, hopen, hc⟩ := bind_eq_ok.mp hc
      have hb := BlockFile.openFile_ok.mp hopen
      have hne : blocks.file ≠ file := by
        intro hf
        obtain ⟨fields, hfields, -⟩ := hb.header
        have hmagic := FileHeader.magic_of_readKind hfields
        rw [hf, hbytes, hheader.magic] at hmagic
        exact absurd hmagic (by decide +kernel)
      have hopen' : BlockFile.openFile d' m.file = .ok blocks := by
        refine BlockFile.openFile_ok.mpr ⟨?_, ?_, hb.path_eq, hb.least, ?_, hb.readable⟩
        · rw [hd.find_eq, hb.find]
        · rw [hd.bytes_eq _ hne]
          exact hb.header
        · rw [hd.bytes_eq _ hne, hb.length_eq]
      have hread (p : BlockPointer) : blocks.read d' p = blocks.read d p := by
        rw [BlockFile.read, BlockFile.read, hd.bytes_eq _ hne]
      refine bind_eq_ok.mpr ⟨c, ?_, hl⟩
      rw [Checkpoint.loadNamed, hopen', ok_bind, hread]
      exact hc
  rw [loadCheckpoint, hloaded]
  exact hrest

end Database

/-! ## A log that is cut off -/

namespace Log

/-- A disk whose log has some groups, each with the place behind it. -/
def Stores (d : Disk) (gs : List (LogGroup × Nat)) : Prop :=
  ∃ file es, Holds d (path Database.logDirectory) file es ∧ Groups es gs

/-- A log with some groups that is open for writing behind them. -/
structure Open (w : LogWriter) (d : Disk) (gs : List (LogGroup × Nat)) : Prop where
  holds : ∃ es, Holds d (path Database.logDirectory) w.file es ∧ Groups es gs
  length_eq : w.length = (d.bytes w.file).length

theorem Open.stores {w : LogWriter} {d : Disk} {gs : List (LogGroup × Nat)} (h : Open w d gs) :
    Stores d gs := by
  obtain ⟨es, hes⟩ := h.holds
  exact ⟨w.file, es, hes⟩

/-- The last group ends where the log does. -/
theorem Open.stop_eq {w : LogWriter} {d : Disk} {gs : List (LogGroup × Nat)} {g : LogGroup}
    {stop : Nat} (h : Open w d (gs ++ [(g, stop)])) : stop = w.length := by
  obtain ⟨es, hes, hg⟩ := h.holds
  obtain ⟨header, body, hb, hh, hf⟩ := hes.bytes
  rw [h.length_eq, hb, List.length_append, hh.1, ← placeBehind_frames hf]
  obtain ⟨front, back, rfl, -, hback⟩ := hg.split
  cases hback with
  | changes hc hr =>
    cases hr
    rw [← List.append_assoc, placeBehind_concat]
  | marker hr =>
    cases hr
    rw [placeBehind_concat]

variable {d d₁ : Disk} {path : String} {file : FileId} {es : List (LogEntry × Nat)}
  {gs : List (LogGroup × Nat)}

theorem Holds.rewrite (h : Holds d path file es) (hd : Disk.SameBut file d d₁) {header body : Bytes}
    (hb : d₁.bytes file = header ++ body) (hh : IsHeader header)
    {kept : List (LogEntry × Nat)} (hf : Frame.Frames FileHeader.length body kept) :
    Holds d₁ path file kept :=
  ⟨(hd.find_eq path).trans h.find, hd.size_eq ▸ h.inside, header, body, hb, hh, hf⟩

/-- **A log that is cut off is read** as far as its frames are whole. -/
theorem Holds.read_cut (h : Holds d path file es) (hd : Disk.SameBut file d d₁) {n : Nat}
    (hb : d₁.bytes file = (d.bytes file).take n) (hn : n ≤ (d.bytes file).length)
    (hheader : FileHeader.length ≤ n) :
    ∃ header body kept lost, es = kept ++ lost ∧ (∀ p ∈ lost, n < p.2) ∧ IsHeader header ∧
      Frame.Frames FileHeader.length body kept ∧ FileHeader.length + body.length ≤ n ∧
      (d₁.bytes file).take (FileHeader.length + body.length) = header ++ body ∧
      Log.read d₁ path = .ok {
        entries := kept
        validLength := FileHeader.length + body.length
        torn := decide (FileHeader.length + body.length < n) } := by
  obtain ⟨header, body, hbytes, hh, hf⟩ := h.bytes
  rw [hbytes, List.length_append, hh.1] at hn
  obtain ⟨m, kept, lost, hm, rfl, hkept, hlost, hread⟩ := hf.take (n := n - FileHeader.length) (by omega)
  have hsplit : n = FileHeader.length + (n - FileHeader.length) := by omega
  have htake (k : Nat) : (header ++ body).take (FileHeader.length + k) = header ++ body.take k := by
    rw [← hh.1, List.take_length_add_append]
  have hlen : (body.take m).length = m := by
    rw [List.length_take]
    omega
  have hcut : d₁.bytes file = header ++ body.take (n - FileHeader.length) := by
    rw [hb, hbytes, hsplit, htake, ← hsplit]
  refine ⟨header, body.take m, kept, lost, rfl, fun p hp => ?_, hh, hkept, by omega, ?_, ?_⟩
  · rw [hsplit]
    exact hlost p hp
  · rw [hlen, hb, hbytes, List.take_take, Nat.min_eq_left (by omega), htake]
  · obtain ⟨fields, hfields⟩ := hh.read (body.take (n - FileHeader.length))
    have hfind : d₁.find path = .ok file := (hd.find_eq path).trans h.find
    have hdrop : (header ++ body.take (n - FileHeader.length)).drop FileHeader.length =
        body.take (n - FileHeader.length) := by
      rw [← hh.1]
      exact List.drop_left
    rw [Log.read, Disk.contains_of_find hfind, Disk.read_of_find hfind, hcut]
    have hlong : ¬(header ++ body.take (n - FileHeader.length)).length < FileHeader.length := by
      rw [List.length_append, hh.1]
      omega
    have htorn : decide (m < n - FileHeader.length) = decide (FileHeader.length + m < n) :=
      decide_eq_decide.mpr (by omega)
    simp only [Bool.not_true, Bool.false_eq_true, if_false, if_neg hlong, hfields, hdrop, hread,
      hlen, htorn]

/-- No group ends behind the log. -/
theorem Holds.stop_le (h : Holds d path file es) (hg : Groups es gs) :
    ∀ g ∈ gs, g.2 ≤ (d.bytes file).length := by
  intro g hm
  obtain ⟨header, body, hb, hh, hf⟩ := h.bytes
  obtain ⟨e, -, he⟩ := hg.stop_mem g hm
  rw [hb, List.length_append, hh.1]
  exact (hf.stop_mem _ he).2

/-- The groups that end within the first bytes come first. -/
theorem Holds.within_split (h : Holds d path file es) (hg : Groups es gs) (n : Nat) :
    ∃ rest, gs = within n gs ++ rest ∧ ∀ g ∈ rest, n < g.2 := by
  obtain ⟨header, body, -, -, hf⟩ := h.bytes
  obtain ⟨kept, lost, rfl, hkept, hlost⟩ := hf.split_at n
  obtain ⟨-, -, rest, -, hgs, -, -, hrest⟩ := hg.cut hkept hlost
  exact ⟨rest, hgs, hrest⟩

/-- No group ends in the header. -/
theorem Holds.within_header (h : Holds d path file es) (hg : Groups es gs) {n : Nat}
    (hn : n < FileHeader.length) : within n gs = [] := by
  obtain ⟨-, body, -, -, hf⟩ := h.bytes
  refine List.filter_eq_nil_iff.mpr fun g hg' => ?_
  obtain ⟨e, -, he⟩ := hg.stop_mem g hg'
  have := (hf.stop_mem _ he).1
  simp only [decide_eq_true_eq]
  omega

/-- A log that ends in its header is read as an empty one. -/
theorem Holds.read_short (h : Holds d path file es) (hd : Disk.SameBut file d d₁)
    (hb : (d₁.bytes file).length < FileHeader.length) :
    Log.read d₁ path = .ok { torn := !(d₁.bytes file).isEmpty } := by
  have hfind : d₁.find path = .ok file := (hd.find_eq path).trans h.find
  rw [Log.read, Disk.contains_of_find hfind, Disk.read_of_find hfind]
  simp only [Bool.not_true, Bool.false_eq_true, if_false, if_pos hb]

end Log

namespace LogWriter

variable {d : Disk} {file : FileId} {contents : LogContents}

/-- **A log is opened behind its last whole frame,** and what follows is cut off. -/
theorem openIn_whole (hfind : d.find (Log.path Database.logDirectory) = .ok file)
    (hread : Log.read d (Log.path Database.logDirectory) = .ok contents)
    (h : FileHeader.length ≤ contents.validLength) (bufferSize : Nat) :
    openIn d Database.logDirectory bufferSize =
      (.ok ⟨Log.path Database.logDirectory, file, contents.validLength, bufferSize⟩,
        if contents.torn then d.setLength file contents.validLength else d) := by
  have hopen : openFile d (Log.path Database.logDirectory) bufferSize contents =
      .ok (⟨Log.path Database.logDirectory, file, contents.validLength, bufferSize⟩,
        if contents.torn then d.setLength file contents.validLength else d) := by
    rw [openFile, if_neg (Nat.not_lt_of_le h), hfind]
    rfl
  rw [openIn, Disk.makeDirectory_log hfind]
  simp only [Attempt.mapError, mapError_ok, Attempt.andThen_ok, hread, ok_bind, hopen]
  rfl

/-- **A log is opened on its whole frames,** and what stands behind them is cut off. -/
theorem openIn_torn {length n : Nat} {entries : List (LogEntry × Nat)} {whole : Bytes}
    (hfind : d.find (Log.path Database.logDirectory) = .ok file)
    (hinside : file < d.contents.size)
    (hread : Log.read d (Log.path Database.logDirectory) =
      .ok { entries, validLength := length, torn := decide (length < n) })
    (hheader : FileHeader.length ≤ length) (hle : length ≤ n) (hlen : (d.bytes file).length = n)
    (htake : (d.bytes file).take length = whole) (bufferSize : Nat) :
    ∃ d', Disk.SameBut file d d' ∧ d'.bytes file = whole ∧
      openIn d Database.logDirectory bufferSize =
        (.ok ⟨Log.path Database.logDirectory, file, length, bufferSize⟩, d') := by
  refine ⟨_, ?_, ?_, openIn_whole hfind hread hheader bufferSize⟩
  · dsimp only
    split
    · exact Disk.SameBut.setLength file d _
    · exact Disk.SameBut.refl file d
  · dsimp only
    split
    · rw [Disk.bytes_setLength hinside (hlen ▸ hle), htake]
    · rename_i htorn
      rw [decide_eq_true_iff] at htorn
      rw [← htake, List.take_of_length_le (by omega)]

/-- A log that ends in its header is begun again. -/
theorem openIn_short (hfind : d.find (Log.path Database.logDirectory) = .ok file)
    (hread : Log.read d (Log.path Database.logDirectory) = .ok contents)
    (h : contents.validLength < FileHeader.length) (bufferSize : Nat) :
    openIn d Database.logDirectory bufferSize =
      (.ok ⟨Log.path Database.logDirectory, file, FileHeader.length, bufferSize⟩,
        (d.write file []).write file (FileHeader.ofKind .log 0).encode) := by
  have hopen : openFile d (Log.path Database.logDirectory) bufferSize contents =
      .ok (⟨Log.path Database.logDirectory, file, FileHeader.length, bufferSize⟩,
        (d.write file []).write file (FileHeader.ofKind .log 0).encode) := by
    rw [openFile, if_pos h, Disk.create_again hfind]
    rfl
  rw [openIn, Disk.makeDirectory_log hfind]
  simp only [Attempt.mapError, mapError_ok, Attempt.andThen_ok, hread, ok_bind, hopen]
  rfl

end LogWriter

namespace Database

variable {d d₁ : Disk} {file : FileId} {es : List (LogEntry × Nat)} {gs : List (LogGroup × Nat)}
  {settings : Settings} {policy : SegmentPolicy} {c₀ : Catalog} {iteration n : Nat} {time : Stamp}

/-- **A directory is opened** when its checkpoint, its log and the file of its log are. -/
theorem openDirectory_ok (hp : settings.segmentPolicy = .ok policy)
    (hload : loadCheckpoint d policy = .ok (c₀, iteration, time)) {contents : LogContents}
    (hread : Log.read d (Log.path logDirectory) = .ok contents) {summary : ReplaySummary}
    {c : Catalog} (hreplay : Replay.ofContents policy iteration c₀ contents = (.ok summary, c))
    {w : LogWriter} (hopen : openLog d settings.log.bufferSize summary = (.ok w, d₁)) :
    ∃ db, openDirectory d settings = (.ok db, db.disk) ∧ db.disk = d₁ ∧ db.log = w ∧
      db.catalog = c ∧ db.iteration = iteration ∧ db.policy = policy ∧
      db.lastCommit = max time summary.lastCommit ∧
      db.active = [] ∧ db.decoded = [] ∧ db.nextTransaction = firstTransaction := by
  have hfile : Replay.ofFile d (Log.path logDirectory) policy iteration c₀ = (.ok summary, c) := by
    rw [Replay.ofFile, hread]
    exact hreplay
  have hrecover : recover d policy = .ok (c, iteration, max time summary.lastCommit, summary) := by
    rw [recover, hload]
    simp only [mapError_ok, ok_bind, hfile]
    rfl
  let db : Database := {
    disk := d₁
    catalog := c
    log := w
    lastCommit := max time summary.lastCommit
    iteration := iteration
    policy := policy
    blockSize := settings.storage.blockSize
    vectorSize := max settings.scan.vectorSize 1
    threshold := settings.log.checkpointThreshold }
  refine ⟨db, ?_, rfl, rfl, rfl, rfl, rfl, rfl, rfl, rfl, rfl⟩
  rw [openDirectory, hp]
  simp only [mapError_ok, ok_bind, hrecover, pure_ok, hopen, Attempt.mapError, Attempt.andThen_ok]
  rfl

/-- A database is open on the groups of a log that end within its first bytes, but for markers behind
them. -/
def OpensAt (settings : Settings) (policy : SegmentPolicy) (c₀ : Catalog) (iteration n : Nat)
    (gs : List (LogGroup × Nat)) (d : Disk) (kept : List (LogGroup × Nat)) (db : Database) : Prop :=
  openDirectory d settings = (.ok db, db.disk) ∧
    Replay.applyAll? policy c₀ ((Log.behind iteration (Log.within n gs)).map (·.1)) =
      some db.catalog ∧
    (∃ markers, Log.within n gs = kept ++ markers ∧
      ∀ g ∈ markers, g.1.isMarker = true ∧ g.1.isCovered iteration = false) ∧
    Log.Open db.log db.disk kept

/-- What a database is that was opened on some groups of a log. -/
structure Reopened (d : Disk) (settings : Settings) (policy : SegmentPolicy) (c : Catalog)
    (iteration : Nat) (last : Stamp) (kept : List (LogGroup × Nat)) (db : Database) : Prop where
  opened : openDirectory d settings = (.ok db, db.disk)
  catalog_eq : db.catalog = c
  iteration_eq : db.iteration = iteration
  policy_eq : db.policy = policy
  last_eq : db.lastCommit = last
  idle : db.active = [] ∧ db.decoded = [] ∧ db.nextTransaction = firstTransaction
  log_open : Log.Open db.log db.disk kept

/-- **A directory is opened on the groups** that its log is left with. -/
theorem reopened_of_openLog (hp : settings.segmentPolicy = .ok policy)
    (hload : loadCheckpoint d policy = .ok (c₀, iteration, time))
    (h : Log.Holds d (Log.path logDirectory) file es) (hd : Disk.SameBut file d d₁)
    {contents : LogContents} (hread : Log.read d₁ (Log.path logDirectory) = .ok contents)
    {summary : ReplaySummary} {c : Catalog}
    (hreplay : Replay.ofContents policy iteration c₀ contents = (.ok summary, c)) {d₂ : Disk}
    {length : Nat} (hlog : openLog d₁ settings.log.bufferSize summary =
      (.ok ⟨Log.path logDirectory, file, length, settings.log.bufferSize⟩, d₂))
    (hd₂ : Disk.SameBut file d d₂) {header body : Bytes} (hb : d₂.bytes file = header ++ body)
    (hlength : length = (header ++ body).length) (hh : Log.IsHeader header)
    {left : List (LogEntry × Nat)} (hf : Frame.Frames FileHeader.length body left)
    {kept : List (LogGroup × Nat)} (hkept : Log.Groups left kept) :
    ∃ db, Reopened d₁ settings policy c iteration (max time summary.lastCommit) kept db ∧
      Disk.SameBut file d db.disk := by
  obtain ⟨db, hdb, rfl, hw, hcatalog, hiteration, hpolicy, hmax, hidle⟩ :=
    openDirectory_ok hp (loadCheckpoint_apart h hd hload) hread hreplay hlog
  refine ⟨db, ⟨hdb, hcatalog, hiteration, hpolicy, hmax, hidle, ⟨⟨left, ?_, hkept⟩, ?_⟩⟩, hd₂⟩
  · rw [hw]
    exact h.rewrite hd₂ hb hh hf
  · rw [hw, hb]
    exact hlength

/-- **A log that is cut off in its header** is opened as an empty one. -/
theorem openDirectory_short (hp : settings.segmentPolicy = .ok policy)
    (hload : loadCheckpoint d policy = .ok (c₀, iteration, time))
    (h : Log.Holds d (Log.path logDirectory) file es) (hg : Log.Groups es gs)
    (hd : Disk.SameBut file d d₁) (hlen : (d₁.bytes file).length = n)
    (hheader : n < FileHeader.length) :
    Log.within n gs = [] ∧ ∃ db, Reopened d₁ settings policy c₀ iteration (max time 0) [] db ∧
      Disk.SameBut file d db.disk := by
  have hread := h.read_short hd (hlen ▸ hheader)
  have hwithin := h.within_header hg hheader
  obtain ⟨summary, hreplay, hdiscarded, hlast⟩ : ∃ summary, Replay.ofContents policy iteration c₀
      { torn := !(d₁.bytes file).isEmpty } = (.ok summary, c₀) ∧ summary.discarded = 0 ∧
        summary.lastCommit = 0 := ⟨_, rfl, rfl, rfl⟩
  have hlog : openLog d₁ settings.log.bufferSize summary =
      (.ok ⟨Log.path logDirectory, file, FileHeader.length, settings.log.bufferSize⟩,
        (d₁.write file []).write file (FileHeader.ofKind .log 0).encode) := by
    rw [openLog, LogWriter.openIn_short ((hd.find_eq _).trans h.find) hread
      (show 0 < FileHeader.length by decide), Attempt.andThen_ok, if_pos hdiscarded]
  have hb₂ : ((d₁.write file []).write file (FileHeader.ofKind .log 0).encode).bytes file =
      (FileHeader.ofKind .log 0).encode ++ [] := by
    rw [List.append_nil]
    refine Disk.bytes_write ?_ _
    rw [Disk.size_write, hd.size_eq]
    exact h.inside
  refine ⟨hwithin, hlast ▸ reopened_of_openLog hp hload h hd hread hreplay hlog
    ((hd.trans (Disk.SameBut.write file d₁ [])).trans (Disk.SameBut.write file _ _)) hb₂ ?_
    Log.isHeader_ofKind (.nil _) .nil⟩
  rw [List.append_nil]
  exact Log.isHeader_ofKind.1.symm

/-- **What is opened behind a cut** are the groups that are whole, but for markers behind them. -/
theorem openDirectory_torn (hp : settings.segmentPolicy = .ok policy)
    (hload : loadCheckpoint d policy = .ok (c₀, iteration, time))
    (h : Log.Holds d (Log.path logDirectory) file es) (hg : Log.Groups es gs) {c : Catalog}
    (hc : Replay.applyAll? policy c₀ ((Log.behind iteration (Log.within n gs)).map (·.1)) = some c)
    (hd : Disk.SameBut file d d₁) (hb : d₁.bytes file = (d.bytes file).take n)
    (hn : n ≤ (d.bytes file).length) :
    ∃ kept markers db, Log.within n gs = kept ++ markers ∧
      (∀ g ∈ markers, g.1.isMarker = true ∧ g.1.isCovered iteration = false) ∧
      Reopened d₁ settings policy c iteration
        (max time (LogGroup.last ((Log.behind iteration (Log.within n gs)).map (·.1)))) kept db ∧
      Disk.SameBut file d db.disk := by
  have hlen₁ : (d₁.bytes file).length = n := by
    rw [hb, List.length_take, Nat.min_eq_left hn]
  by_cases hheader : n < FileHeader.length
  · obtain ⟨hwithin, db, hdb, hsame⟩ := openDirectory_short hp hload h hg hd hlen₁ hheader
    rw [hwithin] at hc ⊢
    obtain rfl := Option.some.inj hc
    exact ⟨[], [], db, rfl, fun g hg => absurd hg List.not_mem_nil, hdb, hsame⟩
  rw [Nat.not_lt] at hheader
  obtain ⟨header, body, entries, lost, rfl, hlost, hh, hf, hle, htake, hread⟩ :=
    h.read_cut hd hb hn hheader
  obtain ⟨front, orphans, rest, rfl, -, hfront, horphans, -⟩ :=
    hg.cut (fun p hp => Nat.le_trans (hf.stop_mem p hp).2 hle) hlost
  obtain ⟨summary, es₁, es₂, kept, markers, hreplay, hdiscarded, hlast, hplace, rfl, hkept, hes₁,
    hmarkers⟩ := hfront.replay_cut horphans (FileHeader.length + body.length)
      (decide (FileHeader.length + body.length < n)) (fun a b hab => by
        rw [hab, List.append_assoc] at hf
        obtain ⟨b₁, b₂, rfl, hb₁, -⟩ := hf.split
        rw [Log.placeBehind_frames hb₁, List.length_append]
        omega) hc
  -- What is not a whole frame is cut off.
  obtain ⟨d₂, hd₂, hb₂, hopen⟩ := LogWriter.openIn_torn ((hd.find_eq _).trans h.find)
    (hd.size_eq ▸ h.inside) hread (Nat.le_add_right ..) hle hlen₁ htake settings.log.bufferSize
  replace hd₂ := hd.trans hd₂
  have hlen₂ : (d₂.bytes file).length = FileHeader.length + body.length := by
    rw [hb₂, List.length_append, hh.1]
  by_cases hnone : orphans = []
  · subst hnone
    rw [List.length_nil] at hdiscarded
    have hlog : openLog d₁ settings.log.bufferSize summary =
        (.ok ⟨Log.path logDirectory, file, FileHeader.length + body.length,
          settings.log.bufferSize⟩, d₂) := by
      rw [openLog, hopen, Attempt.andThen_ok, if_pos hdiscarded]
    rw [List.append_nil] at hf
    obtain ⟨db, hdb, hsame⟩ := reopened_of_openLog hp hload h hd hread hreplay hlog hd₂ hb₂
      (by rw [List.length_append, hh.1]) hh hf hfront
    exact ⟨Log.within n gs, [], db, (List.append_nil _).symm,
      fun g hg => absurd hg List.not_mem_nil, hlast ▸ hdb, hsame⟩
  · -- Behind the groups stand changes without their commit.
    rw [List.append_assoc] at hf
    obtain ⟨b₁, b₂, rfl, hb₁, hrest₂⟩ := hf.split
    have hpos : 0 < b₂.length := List.length_pos_of_ne_nil
      (hrest₂.ne_nil (List.append_ne_nil_of_right_ne_nil _ hnone))
    rw [List.length_append] at hlen₂ hopen
    have hlog : openLog d₁ settings.log.bufferSize summary =
        (.ok ⟨Log.path logDirectory, file, FileHeader.length + b₁.length,
          settings.log.bufferSize⟩, d₂.setLength file (FileHeader.length + b₁.length)) := by
      have hlost : ¬summary.discarded = 0 := by
        rw [hdiscarded]
        exact fun hz => hnone (List.eq_nil_of_length_eq_zero hz)
      rw [openLog, hopen, Attempt.andThen_ok, if_neg hlost, LogWriter.truncateTo, hplace,
        Log.placeBehind_frames hb₁, if_neg]
      rw [Bool.or_eq_true, decide_eq_true_iff, decide_eq_true_iff]
      dsimp only
      omega
    have hb₃ : (d₂.setLength file (FileHeader.length + b₁.length)).bytes file = header ++ b₁ := by
      rw [Disk.bytes_setLength (hd₂.size_eq ▸ h.inside) (by omega), hb₂,
        ← List.append_assoc, ← hh.1, ← List.length_append, List.take_left]
    obtain ⟨db, hdb, hsame⟩ := reopened_of_openLog hp hload h hd hread hreplay hlog
      (hd₂.trans (Disk.SameBut.setLength file d₂ _)) hb₃ (by rw [List.length_append, hh.1]) hh hb₁
      hes₁
    exact ⟨kept, markers, db, hkept, hmarkers, hlast ▸ hdb, hsame⟩

/-- **What is opened behind a cut** is told by the groups that are replayed if all groups can be. -/
theorem openDirectory_cut (hp : settings.segmentPolicy = .ok policy)
    (hload : loadCheckpoint d policy = .ok (c₀, iteration, time))
    (h : Log.Holds d (Log.path logDirectory) file es) (hg : Log.Groups es gs)
    (hc : (Replay.applyAll? policy c₀ ((Log.behind iteration gs).map (·.1))).isSome)
    (hcovered : ∀ g ∈ gs, g.1.isCovered iteration = true → g.2 ≤ n)
    (hd : Disk.SameBut file d d₁) (hb : d₁.bytes file = (d.bytes file).take n)
    (hn : n ≤ (d.bytes file).length) :
    ∃ kept db, OpensAt settings policy c₀ iteration n gs d₁ kept db ∧
      Disk.SameBut file d db.disk := by
  obtain ⟨rest, hgs, hrest⟩ := h.within_split hg n
  have hbehind : Log.behind iteration gs = Log.behind iteration (Log.within n gs) ++ rest := by
    conv => lhs; rw [hgs]
    refine Log.behind_append (fun g hg => ?_) _
    by_contra hne
    rw [Bool.not_eq_false] at hne
    exact absurd (hcovered g (hgs ▸ List.mem_append_right _ hg) hne)
      (Nat.not_le_of_lt (hrest g hg))
  rw [hbehind, List.map_append, Replay.applyAll?_append] at hc
  obtain ⟨c, hc⟩ := Option.isSome_iff_exists.mp (Option.isSome_of_isSome_bind hc)
  obtain ⟨kept, markers, db, hkept, hmarkers, hdb, hsame⟩ :=
    openDirectory_torn hp hload h hg hc hd hb hn
  exact ⟨kept, db, ⟨hdb.opened, hdb.catalog_eq ▸ hc, ⟨markers, hkept, hmarkers⟩, hdb.log_open⟩, hsame⟩

end Database

/-! ## Adding groups -/

/-- **A group that is written comes behind the others.** -/
theorem Log.Open.append {w : LogWriter} {d : Disk} {gs : List (LogGroup × Nat)} (h : Log.Open w d gs)
    {g : LogGroup} (hg : g.Sound) (hw : ∀ e ∈ g.entries, e.Wordy) {b : Bytes}
    (hb : Frame.encodeAll g.entries = .ok b) :
    ∃ stop, Log.Open { w with length := w.length + b.length } (d.writeAt w.file w.length b)
      (gs ++ [(g, stop)]) := by
  obtain ⟨es, hes, hgroups⟩ := h.holds
  obtain ⟨more, hmore, hes'⟩ := hes.append hw hb
  obtain ⟨stop, hnew⟩ := Log.Groups.single hg hmore
  refine ⟨stop, ?_⟩
  rw [h.length_eq]
  refine ⟨⟨es ++ more, hes', hgroups.append hnew⟩, ?_⟩
  rw [Disk.bytes_writeAt_end hes.inside, List.length_append]

namespace LogWriter

/-- Writes groups one behind the other. -/
def appendAll (w : LogWriter) (d : Disk) : List LogGroup → Except LogError (LogWriter × Disk)
  | [] => .ok (w, d)
  | g :: rest => do
    let (w, d) ← w.append d g.entries
    appendAll w d rest

/-- **Groups that are written come behind the others.** -/
theorem appendAll_ok {w w' : LogWriter} {d d' : Disk} {gs : List (LogGroup × Nat)}
    (h : Log.Open w d gs) {groups : List LogGroup}
    (hg : ∀ g ∈ groups, g.Sound ∧ ∀ e ∈ g.entries, e.Wordy)
    (hok : w.appendAll d groups = .ok (w', d')) :
    ∃ placed, placed.map (·.1) = groups ∧ Log.Open w' d' (gs ++ placed) ∧
      Disk.SameBut w.file d d' := by
  induction groups generalizing w d gs with
  | nil =>
    obtain ⟨rfl, rfl⟩ := Prod.mk.inj (Except.ok.inj hok)
    exact ⟨[], rfl, by rwa [List.append_nil], .refl _ d⟩
  | cons g rest ih =>
    obtain ⟨⟨w₁, d₁⟩, hone, hok⟩ := bind_eq_ok.mp hok
    obtain ⟨hsound, hwordy⟩ := hg g List.mem_cons_self
    rw [append] at hone
    split at hone
    · cases hone
    obtain ⟨b, hb, hone⟩ := bind_eq_ok.mp hone
    obtain ⟨rfl, rfl⟩ := Prod.mk.inj (Except.ok.inj hone)
    obtain ⟨stop, hopen⟩ := h.append hsound hwordy hb
    obtain ⟨placed, rfl, hopen', hsame⟩ := ih hopen (fun g hg' => hg g (List.mem_cons_of_mem _ hg')) hok
    refine ⟨(g, stop) :: placed, rfl, ?_, (Disk.SameBut.writeAt w.file d w.length b).trans hsame⟩
    rwa [List.append_assoc] at hopen'

end LogWriter

/-- The disk after a crash in which the log lost all but its first bytes. -/
def Disk.cutLog (d : Disk) (n : Nat) : Disk :=
  match d.change (Log.path Database.logDirectory) (·.take n) with
  | .ok (_, d) => d
  | .error _ => d

namespace Database

/-- A crash that leaves the first bytes of the log, and the groups that are written to the log once
the database is open again. -/
structure Lifetime where
  cut : Nat
  groups : List LogGroup

/-- What holds of a disk with some groups in its log and of every course of crashes from there on.
The database is opened again with the groups of which the last byte is left.  Nothing else stays in
the log, so that whatever is written later is replayed directly behind those groups.  A crash leaves
the markers that the checkpoint covers, and what is written to the log can be replayed. -/
def Survives (settings : Settings) (policy : SegmentPolicy) (c₀ : Catalog) (iteration : Nat) :
    List Lifetime → Disk → List (LogGroup × Nat) → Prop
  | [], d, gs => Log.Stores d gs
  | l :: rest, d, gs => Log.Stores d gs ∧
    ((Replay.applyAll? policy c₀ ((Log.behind iteration gs).map (·.1))).isSome →
      (∀ g ∈ gs, g.1.isCovered iteration = true → g.2 ≤ l.cut) →
      ∃ kept db, OpensAt settings policy c₀ iteration l.cut gs (d.cutLog l.cut) kept db ∧
        ((∀ g ∈ l.groups, g.Sound ∧ ∀ e ∈ g.entries, e.Wordy) → ∀ w d',
          db.log.appendAll db.disk l.groups = .ok (w, d') →
          ∃ placed, placed.map (·.1) = l.groups ∧
            ((∀ g ∈ l.groups, g.isCovered iteration = false) →
              Replay.applyAll? policy c₀ ((Log.behind iteration (kept ++ placed)).map (·.1)) =
                Replay.applyAll? policy db.catalog l.groups) ∧
            Survives settings policy c₀ iteration rest d' (kept ++ placed)))

theorem sameBut_cutLog {d : Disk} {file : FileId}
    (hfind : d.find (Log.path logDirectory) = .ok file) (hinside : file < d.contents.size) (n : Nat) :
    Disk.SameBut file d (d.cutLog n) ∧ (d.cutLog n).bytes file = (d.bytes file).take n := by
  have hcut : d.cutLog n = d.write file ((d.bytes file).take n) := by
    rw [Disk.cutLog, Disk.change, hfind]
    rfl
  rw [hcut]
  exact ⟨Disk.SameBut.write file d _, Disk.bytes_write hinside _⟩

/-- **Commits survive crashes as a whole or not at all.** -/
theorem survives_crashes {settings : Settings} {policy : SegmentPolicy} {c₀ : Catalog} {iteration : Nat}
    {time : Stamp} {d : Disk} {gs : List (LogGroup × Nat)}
    (hp : settings.segmentPolicy = .ok policy)
    (hload : loadCheckpoint d policy = .ok (c₀, iteration, time)) (hd : Log.Stores d gs)
    (lives : List Lifetime) : Survives settings policy c₀ iteration lives d gs := by
  induction lives generalizing d gs with
  | nil => exact hd
  | cons l rest ih =>
    refine ⟨hd, fun hreplay hcovered => ?_⟩
    obtain ⟨file, es, h, hg⟩ := hd
    obtain ⟨hsame, hbytes⟩ := sameBut_cutLog h.find h.inside l.cut
    have hstops := h.stop_le hg
    rw [List.take_eq_take_min] at hbytes
    obtain ⟨kept, db, hopens, hdb⟩ := openDirectory_cut hp hload h hg hreplay
      (fun g hg' hc => Nat.le_min.mpr ⟨hcovered g hg' hc, hstops g hg'⟩) hsame hbytes
      (Nat.min_le_right ..)
    rw [OpensAt, Log.within_min hstops] at hopens
    refine ⟨kept, db, hopens, fun hgroups w d' happend => ?_⟩
    obtain ⟨-, hcatalog, ⟨markers, hkept, hmarkers⟩, hopen⟩ := hopens
    obtain ⟨placed, hplaced, hopen', hd'⟩ := LogWriter.appendAll_ok hopen hgroups happend
    have hfile : db.log.file = file := by
      obtain ⟨es', hes', -⟩ := hopen.holds
      exact Except.ok.inj (hes'.find.symm.trans ((hdb.find_eq _).trans h.find))
    rw [hfile] at hd'
    refine ⟨placed, hplaced, fun huncovered => ?_, ih
      (loadCheckpoint_apart h (hdb.trans hd') hload) hopen'.stores⟩
    rw [hkept, Log.behind_append (fun g hg' => (hmarkers g hg').2), List.map_append,
      Replay.applyAll?_append] at hcatalog
    obtain ⟨c, hc, hcatalog⟩ := Option.bind_eq_some_iff.mp hcatalog
    rw [Replay.applyAll?_markers fun g hg' => by
      obtain ⟨m, hm, rfl⟩ := List.mem_map.mp hg'
      exact (hmarkers m hm).1] at hcatalog
    obtain rfl := Option.some.inj hcatalog
    have hfree : ∀ g ∈ placed, g.1.isCovered iteration = false := fun g hg' =>
      huncovered g.1 (hplaced ▸ List.mem_map_of_mem hg')
    rw [Log.behind_append hfree, List.map_append, Replay.applyAll?_append, hc, hplaced]
    rfl

theorem loadCheckpoint_fresh (policy : SegmentPolicy) :
    loadCheckpoint .fresh policy = .ok ({}, 0, 0) := by
  have hnone : Checkpoint.currentManifest .fresh = .ok none := by
    rw [Checkpoint.currentManifest, if_neg (by decide +kernel)]
    rfl
  rw [loadCheckpoint, Checkpoint.load, hnone]
  rfl

theorem open_fresh (bufferSize : Nat) : Log.Open (freshLog bufferSize) .fresh [] := by
  refine ⟨⟨[], ⟨Disk.find_log, Nat.zero_lt_one, LogWriter.header, [], (List.append_nil _).symm,
    Log.isHeader_ofKind, .nil _⟩, .nil⟩, ?_⟩
  exact Log.isHeader_ofKind.1.symm

/-- A new table. -/
def creation : LogGroup := .changes [.createTable "t" [⟨"a", .bigInt⟩]] 1

/-- Rows for it. -/
def insertion : LogGroup := .changes [.insert "t" [[.bigInt 5], [.bigInt 7]]] 2

/-- The second of two commits is cut off in front of its last byte: the first one is there. -/
theorem survives_torn : ∃ (d : Disk) (db : Database), Log.Stores d [(creation, 84), (insertion, 175)] ∧
    OpensAt {} { capacity := 16384, compression := .lz4 } {} 0 174
      [(creation, 84), (insertion, 175)] (d.cutLog 174) [(creation, 84)] db ∧
    db.catalog.names = [("t", 0)] := by
  have hone : ((freshLog 65536).appendAll .fresh [creation]).toOption.any
      (fun p => p.1.length == 84 && (p.1.appendAll p.2 [insertion]).toOption.any
        (·.1.length == 175)) = true := by decide +kernel
  obtain ⟨⟨w₁, d₁⟩, happ₁, hone⟩ := (Option.any_eq_true _ _).mp hone
  rw [Bool.and_eq_true, beq_iff_eq] at hone
  obtain ⟨hlen₁, hone⟩ := hone
  obtain ⟨⟨w, d⟩, happ, hlen⟩ := (Option.any_eq_true _ _).mp hone
  rw [beq_iff_eq] at hlen
  have hwordy : ∀ g ∈ [creation, insertion], g.Sound ∧ ∀ e ∈ g.entries, e.Wordy := by
    simp [creation, insertion, LogGroup.Sound, LogEntry.IsChange, LogGroup.entries, LogEntry.Wordy,
      UInt64.size]
  obtain ⟨placed₁, hplaced₁, hopen₁, hsame₁⟩ := LogWriter.appendAll_ok (open_fresh 65536)
    (fun g hg => hwordy g (by simpa using Or.inl (List.mem_singleton.mp hg))) (eq_ok_of_toOption happ₁)
  obtain ⟨placed, hplaced, hopen, hsame⟩ := LogWriter.appendAll_ok hopen₁
    (fun g hg => hwordy g (by simpa using Or.inr (List.mem_singleton.mp hg))) (eq_ok_of_toOption happ)
  obtain ⟨⟨g₁, s₁⟩, rfl, rfl⟩ := List.map_eq_singleton_iff.mp hplaced₁
  obtain ⟨⟨g₂, s₂⟩, rfl, rfl⟩ := List.map_eq_singleton_iff.mp hplaced
  obtain rfl : s₁ = 84 := hopen₁.stop_eq.trans hlen₁
  obtain rfl : s₂ = 175 := hopen.stop_eq.trans hlen
  have hload : loadCheckpoint d { capacity := 16384, compression := .lz4 } = .ok ({}, 0, 0) := by
    obtain ⟨es, hes, -⟩ := (open_fresh 65536).holds
    obtain ⟨es₁, hes₁, -⟩ := hopen₁.holds
    have hfile : w₁.file = (freshLog 65536).file :=
      Except.ok.inj (hes₁.find.symm.trans ((hsame₁.find_eq _).trans hes.find))
    exact loadCheckpoint_apart hes (hsame₁.trans (hfile ▸ hsame)) (loadCheckpoint_fresh _)
  obtain ⟨-, hlife⟩ := survives_crashes segmentPolicy_default hload hopen.stores [⟨174, []⟩]
  obtain ⟨kept, db, hopens, -⟩ := hlife (by decide +kernel) (by
    intro g hg
    simp only [List.nil_append, List.singleton_append, List.mem_cons, List.not_mem_nil,
      or_false] at hg
    rcases hg with rfl | rfl <;> exact fun hc => absurd hc Bool.false_ne_true)
  obtain ⟨-, hcatalog, ⟨markers, hkept, hmarkers⟩, -⟩ := id hopens
  obtain rfl : kept = [(creation, 84)] := by
    have hwithin : [(creation, 84)] = kept ++ markers := hkept
    rcases List.append_eq_singleton_iff.mp hwithin.symm with ⟨rfl, rfl⟩ | ⟨rfl, rfl⟩
    · exact absurd (hmarkers _ List.mem_cons_self).1 Bool.false_ne_true
    · rfl
  refine ⟨d, db, hopen.stores, hopens, ?_⟩
  have hnames : (Replay.applyAll? { capacity := 16384, compression := .lz4 } {} [creation]).map
      Catalog.names = some [("t", 0)] := by decide +kernel
  have hsingle : Replay.applyAll? { capacity := 16384, compression := .lz4 } {} [creation] =
      some db.catalog := hcatalog
  rw [hsingle] at hnames
  exact Option.some.inj hnames

end Database
end ColumnStore
