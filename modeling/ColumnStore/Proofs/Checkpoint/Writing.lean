/-
# Writing a checkpoint

What is written of a table names every segment of its columns, and where the values of each can be
read (`writeContents_ok`).  No file that was there before is touched (`write_ok`).
-/

import ColumnStore.Proofs.Checkpoint.Files
import ColumnStore.Proofs.Disk.Payloads

namespace ColumnStore
namespace Checkpoint

/-! ## Writing to the block file -/

/-- More was written to the block file. -/
structure Advances (s s' : Writing) : Prop where
  whole : s'.1.Whole s'.2
  continues : s.1.Continues s.2 s'.1 s'.2

theorem Advances.refl {s : Writing} (h : s.1.Whole s.2) : Advances s s := ⟨h, .refl _ _⟩

theorem Advances.trans {s s₁ s' : Writing} (h : Advances s s₁) (h' : Advances s₁ s') :
    Advances s s' := ⟨h'.whole, h.continues.trans h'.continues⟩

/-- A payload that is in the block file. -/
def Holds (s : Writing) (p : BlockPointer) (payload : Bytes) : Prop := s.1.Holds s.2 p payload

theorem writePayload_ok {s s' : Writing} {payload : Bytes} {r : Except StorageError BlockPointer}
    (h : s.1.Whole s.2) (hok : writePayload s payload = (r, s')) :
    Advances s s' ∧ ∀ p, r = .ok p → Holds s' p payload := by
  rw [writePayload] at hok
  cases hw : s.1.write s.2 payload with
  | error e =>
    rw [hw] at hok
    obtain ⟨rfl, rfl⟩ := Prod.mk.inj hok
    exact ⟨.refl h, fun p hp => by cases hp⟩
  | ok res =>
    obtain ⟨p, f, d⟩ := res
    rw [hw] at hok
    obtain ⟨rfl, rfl⟩ := Prod.mk.inj hok
    obtain ⟨hwhole, hcont, hread⟩ := BlockFile.write_ok h hw
    refine ⟨⟨hwhole, hcont⟩, fun q hq => ?_⟩
    obtain rfl := Except.ok.inj hq
    exact hread

/-- **What is said of each thing that is written holds when all are.** -/
theorem writeEach_ok {α β : Type} {write : Writing → α → Attempt StorageError Writing β}
    {P : Writing → α → β → Prop} (hP : ∀ s s' a b, Advances s s' → P s a b → P s' a b)
    {xs : List α} (hwrite : ∀ s s' a r, s.1.Whole s.2 → write s a = (r, s') →
      Advances s s' ∧ ∀ b, r = .ok b → P s' a b)
    {s s' : Writing} {r : Except StorageError (List β)} (h : s.1.Whole s.2)
    (hok : writeEach write s xs = (r, s')) :
    Advances s s' ∧ ∀ bs, r = .ok bs → List.Forall₂ (P s') xs bs := by
  induction xs generalizing s s' r with
  | nil =>
    obtain ⟨rfl, rfl⟩ := Prod.mk.inj hok
    refine ⟨.refl h, fun bs hbs => ?_⟩
    obtain rfl := Except.ok.inj hbs
    exact .nil
  | cons a rest ih =>
    rw [writeEach] at hok
    rcases hw : write s a with ⟨e | b, s₁⟩
    · rw [hw] at hok
      obtain ⟨rfl, rfl⟩ := Prod.mk.inj hok
      exact ⟨(hwrite s s₁ a _ h hw).1, fun bs hbs => by cases hbs⟩
    · rw [hw, Attempt.andThen_ok] at hok
      obtain ⟨hadv, hb⟩ := hwrite s s₁ a _ h hw
      rcases hrest : writeEach write s₁ rest with ⟨r', s₂⟩
      rw [hrest] at hok
      obtain ⟨rfl, rfl⟩ := Prod.mk.inj hok
      obtain ⟨hadv', hbs⟩ := ih hadv.whole hrest
      refine ⟨hadv.trans hadv', fun bs heq => ?_⟩
      obtain ⟨more, rfl, rfl⟩ := map_eq_ok.mp heq
      exact .cons (hP _ _ _ _ hadv' (hb b rfl)) (hbs more rfl)

/-! ## Tables -/

/-- A record of a segment names the place of its values. -/
structure Records (preferred : Scheme) (s : Writing) (g : Segment) (r : SegmentRecord) : Prop where
  start_eq : r.start = g.start
  count_eq : r.count = g.count
  statistics_eq : r.statistics = g.statistics
  image : ∃ source image, g.encoded source preferred = .ok image ∧ Holds s r.pointer image

theorem writeSegment_ok {preferred : Scheme} {s s' : Writing} {g : Segment}
    {r : Except StorageError SegmentRecord} (h : s.1.Whole s.2)
    (hok : writeSegment preferred s g = (r, s')) :
    Advances s s' ∧ ∀ x, r = .ok x → Records preferred s' g x := by
  rw [writeSegment] at hok
  split at hok
  · obtain ⟨rfl, rfl⟩ := Prod.mk.inj hok
    exact ⟨.refl h, fun x hx => by cases hx⟩
  · rename_i image himage
    rcases hw : writePayload s image with ⟨e | p, s₁⟩
    · rw [hw] at hok
      obtain ⟨rfl, rfl⟩ := Prod.mk.inj hok
      exact ⟨(writePayload_ok h hw).1, fun x hx => by cases hx⟩
    · rw [hw, Attempt.andThen_ok] at hok
      obtain ⟨rfl, rfl⟩ := Prod.mk.inj hok
      obtain ⟨hadv, hp⟩ := writePayload_ok h hw
      refine ⟨hadv, fun x hx => ?_⟩
      obtain rfl := Except.ok.inj hx
      exact ⟨rfl, rfl, rfl, _, image, himage, hp p rfl⟩

/-- Whatever is in the first block file is in the second one. -/
def Within (s s' : Writing) : Prop := ∀ p payload, Holds s p payload → Holds s' p payload

theorem Advances.within {s s' : Writing} (h : Advances s s') : Within s s' :=
  fun _ _ hp => BlockFile.Holds.continues hp h.continues

theorem Records.within {preferred : Scheme} {s s' : Writing} {g : Segment} {r : SegmentRecord}
    (hs : Within s s') (h : Records preferred s g r) : Records preferred s' g r := by
  obtain ⟨source, image, himage, hp⟩ := h.image
  exact ⟨h.start_eq, h.count_eq, h.statistics_eq, source, image, himage, hs _ _ hp⟩

/-- A record of a table names the places of the values of its columns. -/
structure RecordsTable (preferred : Scheme) (s : Writing) (t : Table × List Column)
    (r : TableRecord) : Prop where
  name_eq : r.name = t.1.name
  definitions_eq : r.definitions = t.1.definitions
  rows_eq : r.rows = (t.2.head?.map (·.rows)).getD 0
  segments : List.Forall₂ (fun c rs => List.Forall₂ (Records preferred s) c.segments rs) t.2
    r.segments

theorem forall₂_within {preferred : Scheme} {s s' : Writing} (hs : Within s s')
    {gs : List Segment} {rs : List SegmentRecord} (h : List.Forall₂ (Records preferred s) gs rs) :
    List.Forall₂ (Records preferred s') gs rs := h.imp fun _ _ => Records.within hs

theorem RecordsTable.within {preferred : Scheme} {s s' : Writing} {t : Table × List Column}
    {r : TableRecord} (hs : Within s s') (h : RecordsTable preferred s t r) :
    RecordsTable preferred s' t r :=
  ⟨h.name_eq, h.definitions_eq, h.rows_eq, h.segments.imp fun _ _ => forall₂_within hs⟩

theorem writeTable_ok {preferred : Scheme} {s s' : Writing} {t : Table × List Column}
    {r : Except StorageError TableRecord} (h : s.1.Whole s.2)
    (hok : writeTable preferred s t = (r, s')) :
    Advances s s' ∧ ∀ x, r = .ok x → RecordsTable preferred s' t x := by
  rw [writeTable] at hok
  have hcolumns {r' : Except StorageError (List (List SegmentRecord))} {s₁ : Writing}
      (hw : writeEach (fun s c => writeEach (writeSegment preferred) s c.segments) s t.2 =
        (r', s₁)) :=
    writeEach_ok (P := fun s (c : Column) rs => List.Forall₂ (Records preferred s) c.segments rs)
      (fun s s' c rs hs => forall₂_within hs.within)
      (fun s s' c r hs hw => writeEach_ok (P := Records preferred)
        (fun _ _ _ _ hs => Records.within hs.within) (fun _ _ _ _ => writeSegment_ok) hs hw) h hw
  rcases hw : writeEach (fun s c => writeEach (writeSegment preferred) s c.segments) s t.2 with
    ⟨e | segments, s₁⟩
  · rw [hw] at hok
    obtain ⟨rfl, rfl⟩ := Prod.mk.inj hok
    exact ⟨(hcolumns hw).1, fun x hx => by cases hx⟩
  · rw [hw, Attempt.andThen_ok] at hok
    obtain ⟨rfl, rfl⟩ := Prod.mk.inj hok
    obtain ⟨hadv, hsegments⟩ := hcolumns hw
    refine ⟨hadv, fun x hx => ?_⟩
    obtain rfl := Except.ok.inj hx
    exact ⟨rfl, rfl, rfl, hsegments segments rfl⟩

/-- What was written when a checkpoint is. -/
structure Written (policy : SegmentPolicy) (iteration : Nat) (lastCommit : Stamp)
    (tables : List (Table × List Column)) (s : Writing) (w : WrittenCheckpoint)
    (records : List TableRecord) : Prop where
  each : List.Forall₂ (RecordsTable policy.compression s) tables records
  iteration_eq : w.manifest.iteration = iteration
  file_eq : w.manifest.file = s.1.path
  metadata : Holds s w.manifest.metadata
    (Coder.metadata.encode { iteration, lastCommit, tables := records })
  columns : ((tables.zip records).zipIdx.mapM fun ((t, r), i) =>
    storedColumns s.1 policy i t.2 r) = .ok w.columns

/-- What was written stays written while the block file does. -/
theorem Written.within {policy : SegmentPolicy} {iteration : Nat} {lastCommit : Stamp}
    {tables : List (Table × List Column)} {f : BlockFile} {d d' : Disk} {w : WrittenCheckpoint}
    {records : List TableRecord} (hs : Within (f, d) (f, d'))
    (h : Written policy iteration lastCommit tables (f, d) w records) :
    Written policy iteration lastCommit tables (f, d') w records :=
  ⟨h.each.imp fun _ _ => RecordsTable.within hs, h.iteration_eq, h.file_eq, hs _ _ h.metadata,
    h.columns⟩

/-- **What is written can be read,** from the blocks that the metadata names. -/
theorem writeContents_ok {policy : SegmentPolicy} {iteration : Nat} {lastCommit : Stamp}
    {tables : List (Table × List Column)} {s s' : Writing}
    {r : Except StorageError WrittenCheckpoint} (h : s.1.Whole s.2)
    (hok : writeContents s policy iteration lastCommit tables = (r, s')) :
    Advances s s' ∧ ∀ w, r = .ok w →
      ∃ records, Written policy iteration lastCommit tables s' w records := by
  rw [writeContents] at hok
  have htables {r' : Except StorageError (List TableRecord)} {s₁ : Writing}
      (hw : writeEach (writeTable policy.compression) s tables = (r', s₁)) :=
    writeEach_ok (P := RecordsTable policy.compression)
      (fun _ _ _ _ hs => RecordsTable.within hs.within) (fun _ _ _ _ => writeTable_ok) h hw
  rcases hw : writeEach (writeTable policy.compression) s tables with ⟨e | records, s₁⟩
  · rw [hw] at hok
    obtain ⟨rfl, rfl⟩ := Prod.mk.inj hok
    exact ⟨(htables hw).1, fun w hx => by cases hx⟩
  · rw [hw, Attempt.andThen_ok] at hok
    obtain ⟨hadv, hrecords⟩ := htables hw
    dsimp only at hok
    rcases hp : writePayload s₁ (Coder.metadata.encode { iteration, lastCommit, tables := records })
      with ⟨e | p, s₂⟩
    · rw [hp] at hok
      obtain ⟨rfl, rfl⟩ := Prod.mk.inj hok
      exact ⟨hadv.trans (writePayload_ok hadv.whole hp).1, fun w hx => by cases hx⟩
    · rw [hp, Attempt.andThen_ok] at hok
      obtain ⟨rfl, rfl⟩ := Prod.mk.inj hok
      obtain ⟨hadv', hmeta⟩ := writePayload_ok hadv.whole hp
      refine ⟨hadv.trans hadv', fun w hx => ?_⟩
      obtain ⟨columns, hcolumns, rfl⟩ := map_eq_ok.mp hx
      exact ⟨records, (hrecords records rfl).imp fun _ _ => RecordsTable.within hadv'.within, rfl, rfl,
        hmeta p rfl, hcolumns⟩

/-! ## Files -/

/-- What a checkpoint leaves alone on a disk: files that were there keep their bytes, but for one,
and so does everything but the given names. -/
structure Spares (names : List String) (file : FileId) (d d' : Disk) : Prop where
  whole : d'.Whole
  entries : Disk.SameExcept (names.map ([·])) d d'
  grows : d.Grows file d'

namespace Spares

variable {names more : List String} {file : FileId} {d d₁ d' : Disk}

theorem refl (h : d.Whole) (names : List String) (file : FileId) : Spares names file d d :=
  ⟨h, .refl _ d, .refl file d⟩

theorem trans (h : Spares names file d d₁) (h' : Spares names file d₁ d') :
    Spares names file d d' :=
  ⟨h'.whole, h.entries.trans h'.entries, h.grows.trans h'.grows⟩

theorem mono (h : Spares names file d d') (hs : ∀ n ∈ names, n ∈ more) : Spares more file d d' :=
  ⟨h.whole, h.entries.mono fun p hp => by
    obtain ⟨n, hn, rfl⟩ := List.mem_map.mp hp
    exact List.mem_map_of_mem (hs n hn), h.grows⟩

theorem without {name : String} (hname : Disk.Plain name) (h : d.Whole) (file : FileId) :
    Spares [name] file d (d.without [name]) :=
  have hcontents : (d.without [name]).contents = d.contents := rfl
  ⟨h.without hname.inner, Disk.sameExcept_without hname.inner d, .of_contents hcontents file⟩

end Spares

variable {d d' : Disk} {n : Nat}

/-- **What has the name of the file of a checkpoint is taken away.** -/
theorem clear_ok (hn : n < UInt64.size) (h : d.Whole) (hok : clear d n = .ok d') (file : FileId) :
    d'.entry? [fileName n] = none ∧ Spares [fileName n] file d d' ∧ d'.contents = d.contents ∧
      d.KeepsNames d' := by
  have hplain := plain_fileName hn
  rw [clear, hplain.contains_eq] at hok
  split at hok
  · obtain ⟨-, rfl⟩ := hplain.delete_ok hok
    exact ⟨by rw [Disk.entry?_without hplain.inner, if_pos rfl], .without hplain h file, rfl,
      .without hplain.inner d⟩
  · rename_i hnone
    obtain rfl := Except.ok.inj hok
    exact ⟨by simpa using hnone, .refl h _ file, rfl, .refl d⟩

/-- **A block file that is created** takes nothing away, whatever is written to it. -/
theorem create_spares (hn : n < UInt64.size) (h : d.Whole) (hnone : d.entry? [fileName n] = none)
    {blockSize : Nat} {f : BlockFile} {d₁ : Disk}
    (hok : BlockFile.create d (fileName n) blockSize = .ok (f, d₁))
    (hsame : Disk.SameBut f.file d₁ d') (file : FileId) :
    Spares [fileName n] file d d' ∧ d.KeepsNames d' := by
  have hplain := plain_fileName hn
  obtain ⟨-, hfile, -, hentries, hsize, hbytes, -⟩ := BlockFile.create_ok hplain hnone hok
  have hentry (p : Place) : d'.entry? p = Disk.entry? (d.withFile [fileName n]) p := by
    rw [Disk.entry?, Disk.entry?, hsame.entries_eq, hentries]
  refine ⟨⟨fun p g hg => ?_, fun p hp => ?_, ?_, fun g hg _ => ?_⟩, fun p g hg =>
    Disk.KeepsNames.withFile hplain.inner d p g (hentry p ▸ hg)⟩
  · rw [hsame.size_eq, hsize]
    rw [hentry] at hg
    have := h.withFile hplain.inner p g hg
    rwa [show (d.withFile [fileName n]).contents.size = d.contents.size + 1 from
      Array.size_push ..] at this
  · rw [hentry]
    exact Disk.sameExcept_setEntry hplain.inner _ _ p hp
  · rw [hsame.size_eq, hsize]
    exact Nat.le_succ _
  · rw [hsame.bytes_eq g (by rw [hfile]; exact Nat.ne_of_lt hg), hbytes g hg]

/-- **Whatever comes of writing a checkpoint,** only its own file is made; when it is written, its
file has its name. -/
theorem write_ok {blockSize : Nat} {policy : SegmentPolicy} {lastCommit : Stamp}
    {tables : List (Table × List Column)} {r : Except StorageError WrittenCheckpoint}
    (hn : n < UInt64.size) (h : d.Whole)
    (hok : write d blockSize policy n lastCommit tables = (r, d')) (file : FileId) :
    Spares [fileName n] file d d' ∧ d.KeepsNames d' ∧ ∀ w, r = .ok w → ∃ f records,
      Written policy n lastCommit tables (f, d') w records ∧ f.Whole d' ∧ f.path = fileName n ∧
      f.file = d.contents.size ∧ f.blockSize = blockSize ∧
      d'.entry? [fileName n] = some (.file f.file) ∧
      Bytes.padTo BlockFile.headerArea (FileHeader.ofKind .blockFile blockSize).encode <+:
        d'.bytes f.file := by
  have hplain := plain_fileName hn
  rw [write] at hok
  split at hok
  · obtain ⟨rfl, rfl⟩ := Prod.mk.inj hok
    exact ⟨.refl h _ file, .refl d, fun w hw => by cases hw⟩
  rename_i d₁ hclear
  obtain ⟨hnone, hspares, hcontents, hnames⟩ := clear_ok hn h hclear file
  split at hok
  · obtain ⟨rfl, rfl⟩ := Prod.mk.inj hok
    exact ⟨hspares, hnames, fun w hw => by cases hw⟩
  rename_i s hcreate
  obtain ⟨f, d₂⟩ := s
  obtain ⟨hwhole, hfile, hpath, hentries, hsize, hbytes, hheader, hblock, -⟩ :=
    BlockFile.create_ok hplain hnone hcreate
  rcases hw : writeContents (f, d₂) policy n lastCommit tables with ⟨r', s'⟩
  rw [hw] at hok
  obtain ⟨rfl, rfl⟩ := Prod.mk.inj hok
  obtain ⟨hadv, hwritten⟩ := writeContents_ok hwhole hw
  obtain ⟨f', d₃⟩ := s'
  obtain ⟨hspares', hnames'⟩ :=
    create_spares hn hspares.whole hnone hcreate hadv.continues.sameBut file
  refine ⟨hspares.trans hspares', hnames.trans hspares.grows.size_le hnames', fun w hw => ?_⟩
  obtain ⟨records, hrecords⟩ := hwritten w hw
  have hfile' : f'.file = f.file := hadv.continues.file_eq
  refine ⟨f', records, hrecords, hadv.whole, hadv.continues.path_eq.trans hpath, ?_,
    hadv.continues.blockSize_eq.trans hblock, ?_, ?_⟩
  · rw [hfile', hfile, hcontents]
  · rw [Disk.entry?, hadv.continues.sameBut.entries_eq, hentries, ← Disk.entry?,
      Disk.entry?_withFile hplain.inner, if_pos rfl, hfile', hfile]
  · rw [hfile', ← hheader]
    exact hadv.continues.bytes_prefix

/-- A disk on which a manifest can be drafted: under its first name there is nothing, or a file that
has no other name and is too short for a block, as a manifest is that was not installed. -/
structure Draftable (d : Disk) : Prop where
  free : d.isDirectory [Manifest.draftPath] = false
  alone : ∀ file, d.entry? [Manifest.draftPath] = some (.file file) →
    (∀ p, d.entry? p = some (.file file) → p = [Manifest.draftPath]) ∧
      (d.bytes file).length < BlockFile.headerArea

namespace Draftable

theorem of_none (h : d.entry? [Manifest.draftPath] = none) : Draftable d where
  free := by simp [Disk.isDirectory, h]
  alone file hf := by
    rw [h] at hf
    cases hf

/-- A manifest can be drafted while its name stays and no file gets another one. -/
theorem grows (h : Draftable d) (hd : d.Whole) (hnames : d.KeepsNames d')
    (hentry : d'.entry? [Manifest.draftPath] = d.entry? [Manifest.draftPath]) {p : Place}
    {file : FileId} (hp : d.entry? p = some (.file file)) (hne : p ≠ [Manifest.draftPath])
    (hgrows : d.Grows file d') : Draftable d' where
  free := by
    rw [Disk.isDirectory, hentry]
    exact h.free
  alone g hg := by
    rw [hentry] at hg
    obtain ⟨halone, hshort⟩ := h.alone g hg
    refine ⟨fun q hq => ?_, ?_⟩
    · rcases hnames q g hq with hq | hle
      · exact halone q hq
      · exact absurd (hd _ _ hg) (Nat.not_lt.mpr hle)
    · rwa [hgrows.bytes_eq g (hd _ _ hg) fun heq => hne (halone p (heq ▸ hp))]

/-- **The file of the draft** has no other name, and no block is in it. -/
theorem target (h : Draftable d) (hd : d.Whole) {file : FileId}
    (hfile : d.entry? [Manifest.draftPath] = some (.file file) ∨ file = d.contents.size) :
    (d.bytes file).length < BlockFile.headerArea ∧
      ∀ p g, p ≠ [Manifest.draftPath] → d.entry? p = some (.file g) → g ≠ file := by
  rcases hfile with hfile | rfl
  · obtain ⟨halone, hshort⟩ := h.alone file hfile
    exact ⟨hshort, fun p g hne hp heq => hne (halone p (heq ▸ hp))⟩
  · refine ⟨?_, fun p g _ hp => Nat.ne_of_lt (hd p g hp)⟩
    rw [Disk.bytes, Array.getD_eq_getD_getElem?, Array.getElem?_eq_none (Nat.le_refl _)]
    decide

end Draftable

/-- Some bytes under the first name of a manifest. -/
structure Drafted (d d' : Disk) (b : Bytes) (file : FileId) : Prop where
  entry : d'.entry? [Manifest.draftPath] = some (.file file)
  bytes : d'.bytes file = b
  spares : Spares [Manifest.draftPath] file d d'
  old : d.entry? [Manifest.draftPath] = some (.file file) ∨ file = d.contents.size

/-- **A draft is created** unless a directory is in the way, and then written. -/
theorem draft_ok (h : d.Whole) (hdraft : d.isDirectory [Manifest.draftPath] = false) :
    ∃ file d', d.create Manifest.draftPath = .ok (file, d') ∧
      ∀ b, Drafted d (d'.write file b) b file := by
  cases he : d.entry? [Manifest.draftPath] with
  | none =>
    have hin : d.contents.size < (d.withFile [Manifest.draftPath]).contents.size :=
      Nat.lt_of_lt_of_eq (Nat.lt_succ_self _) (Array.size_push ..).symm
    refine ⟨_, _, plain_draft.create_new he, fun b => ?_⟩
    have hsame := Disk.SameBut.write d.contents.size (d.withFile [Manifest.draftPath]) b
    refine ⟨?_, Disk.bytes_write hin _, ⟨?_, ?_, ?_⟩, Or.inr rfl⟩
    · rw [Disk.sameExcept_of_entries hsame.entries_eq [] _ List.not_mem_nil,
        Disk.entry?_withFile plain_draft.inner, if_pos rfl]
    · exact (h.withFile plain_draft.inner).sameBut hsame
    · exact (Disk.sameExcept_setEntry plain_draft.inner _ _).trans
        (Disk.sameExcept_of_entries hsame.entries_eq _)
    · exact (Disk.Grows.withFile _ d _).trans (.sameBut hsame)
  | some e =>
    cases e with
    | directory =>
      rw [Disk.isDirectory, he] at hdraft
      cases hdraft
    | file file =>
      have hin := h _ _ he
      refine ⟨_, _, plain_draft.create_again he, fun b => ?_⟩
      have hsame := (Disk.SameBut.write file d []).trans (Disk.SameBut.write file (d.write file []) b)
      have hentries := Disk.sameExcept_of_entries hsame.entries_eq
      refine ⟨?_, Disk.bytes_write ?_ _, ⟨?_, ?_, ?_⟩, Or.inl he⟩
      · exact (hentries [] _ List.not_mem_nil).trans he
      · rw [Disk.size_write]
        exact hin
      · exact h.sameBut hsame
      · exact hentries _
      · exact .sameBut hsame

/-- A manifest that is whole and in its place. -/
structure Installed (d d' : Disk) (m : Manifest) (file : FileId) : Prop where
  entry : d'.entry? [Manifest.path] = some (.file file)
  bytes : d'.bytes file = Bytes.ofString m.render
  draft : d'.entry? [Manifest.draftPath] = none
  spares : Spares [Manifest.draftPath, Manifest.path] file d d'
  old : d.entry? [Manifest.draftPath] = some (.file file) ∨ file = d.contents.size

/-- **A checkpoint is installed** unless directories are in the way. -/
theorem install_ok (h : d.Whole) (m : Manifest) (hdraft : d.isDirectory [Manifest.draftPath] = false)
    (hpath : d.isDirectory [Manifest.path] = false) :
    ∃ d' file, install d m = (.ok (), d') ∧ Installed d d' m file := by
  obtain ⟨file, d₁, hcreate, hdrafted⟩ := draft_ok h hdraft
  have hdrafted := hdrafted (Bytes.ofString m.render)
  have hne : [Manifest.path] ≠ [Manifest.draftPath] := by decide
  have hpath' : (d₁.write file (Bytes.ofString m.render)).isDirectory [Manifest.path] = false := by
    rw [Disk.isDirectory, hdrafted.spares.entries _ (by simpa using hne)]
    exact hpath
  have hrename := plain_draft.rename_eq plain_manifest hdrafted.entry hpath'
  have hinstall : install d m = (.ok (),
      ((d₁.write file (Bytes.ofString m.render)).without [Manifest.draftPath]).setEntry
        [Manifest.path] (.file file)) := by
    rw [install, hcreate]
    simp only [hrename]
  generalize d₁.write file (Bytes.ofString m.render) = d₂ at hdrafted hrename hinstall
  have hwithout := hdrafted.spares.whole.without plain_draft.inner
  refine ⟨_, file, hinstall, ?_, hdrafted.bytes, ?_, ⟨?_, ?_, ?_⟩, hdrafted.old⟩
  · rw [Disk.entry?_setEntry plain_manifest.inner, if_pos rfl]
  · rw [Disk.entry?_setEntry plain_manifest.inner, if_neg hne.symm,
      Disk.entry?_without plain_draft.inner, if_pos rfl]
  · exact hwithout.setEntry plain_manifest.inner (hdrafted.spares.whole _ _ hdrafted.entry)
  · refine (hdrafted.spares.entries.mono (by simp)).trans
      (((Disk.sameExcept_without plain_draft.inner d₂).mono (by simp)).trans
        ((Disk.sameExcept_setEntry plain_manifest.inner _ _).mono (by simp)))
  · exact hdrafted.spares.grows.trans (.of_contents (by rfl) file)

/-- The disk after some names have been taken away, those that cannot be apart. -/
def deleteAll (d : Disk) (names : List String) : Disk :=
  names.foldl (fun d name => (d.delete name).toOption.getD d) d

/-- **Files of other checkpoints are deleted,** and only those. -/
theorem deleteAll_ok (h : d.Whole) {keep : Nat} {stale : List String}
    (hstale : ∀ name ∈ stale, ∃ n, iterationOf? name = some n ∧ n ≠ keep) (file : FileId) :
    ∃ names, Spares names file d (deleteAll d stale) ∧ (deleteAll d stale).contents = d.contents ∧
      d.KeepsNames (deleteAll d stale) ∧
      ∀ name ∈ names, Disk.Plain name ∧ ∃ n, iterationOf? name = some n ∧ n ≠ keep := by
  induction stale generalizing d with
  | nil => exact ⟨[], .refl h _ file, rfl, .refl d, fun name hm => absurd hm List.not_mem_nil⟩
  | cons name rest ih =>
    have hrest := fun n hm => hstale n (List.mem_cons_of_mem _ hm)
    rw [deleteAll, List.foldl_cons]
    cases hd : d.delete name with
    | error e => exact ih h hrest
    | ok d' =>
      obtain ⟨n, hn, hne⟩ := hstale name List.mem_cons_self
      obtain ⟨hslash, hnul, hnamed, -⟩ := name_of_iterationOf? hn
      have hplain : Disk.Plain name :=
        ⟨hslash, hnul, hnamed, Disk.short_of_delete hslash hnamed hd⟩
      obtain ⟨-, rfl⟩ := hplain.delete_ok hd
      obtain ⟨names, hspares, hcontents, hkeeps, hall⟩ := ih (h.without hplain.inner) hrest
      refine ⟨name :: names, ?_, hcontents,
        (Disk.KeepsNames.without hplain.inner d).trans (Nat.le_refl _) hkeeps,
        List.forall_mem_cons.mpr ⟨⟨hplain, n, hn, hne⟩, hall⟩⟩
      exact ((Spares.without hplain h file).mono (by simp)).trans
        (hspares.mono fun n hm => List.mem_cons_of_mem _ hm)

/-- Stale names are those of other checkpoints. -/
theorem iterationOf?_stale {d : Disk} {keep : Nat} :
    ∀ name ∈ stale d keep, ∃ n, iterationOf? name = some n ∧ n ≠ keep := by
  intro name hm
  obtain ⟨-, hname⟩ := List.mem_filter.mp hm
  obtain ⟨n, hn, hne⟩ := (Option.any_eq_true _ _).mp (Bool.and_eq_true_iff.mp hname).2
  exact ⟨n, hn, by simpa using hne⟩

end Checkpoint
end ColumnStore
