/-
# The metadata of a checkpoint is read back

The metadata of a checkpoint is read back but for the counts in the statistics of its segments, which
are cut down to 64 bits (`Coder.metadata_reads`).
-/

import ColumnStore.Checkpoint.Metadata
import ColumnStore.Proofs.Attempts
import ColumnStore.Proofs.Coding.ReadsBack

namespace ColumnStore
namespace Coder

variable {α β : Type}

/-- A coder reads something for a value that it wrote, whatever follows. -/
def Reads (c : Coder α) (a a' : α) : Prop := ∀ rest, c.decode (c.encode a ++ rest) = some (a', rest)

theorem ReadsBack.reads {c : Coder α} {a : α} (h : c.ReadsBack a) : c.Reads a a := h

theorem pair_reads {c : Coder α} {d : Coder β} {a a' : α} {b b' : β} (ha : c.Reads a a')
    (hb : d.Reads b b') : (pair c d).Reads (a, b) (a', b') := by
  intro rest
  simp [pair, List.append_assoc, ha _, hb _]

theorem map_reads {c : Coder α} {pack : α → β} {unpack : β → α} {b : β} {a' : α}
    (h : c.Reads (unpack b) a') : (map c pack unpack).Reads b (pack a') := by
  intro rest
  simp only [map, h rest, Option.map_some]

theorem word_reads (n : Nat) : word.Reads n (n % Bytes.bound 8) := by
  intro rest
  have h := Bytes.split?_append (Bytes.ofNat 8 n) rest
  rw [Bytes.length_ofNat] at h
  simp [word, nat, h, Bytes.toNat_ofNat]

/-- **A list is read item by item.** -/
theorem list_reads {c : Coder α} {P : α → α → Prop} {vs : List α}
    (hlen : vs.length < UInt64.size) (h : ∀ v ∈ vs, ∃ v', c.Reads v v' ∧ P v v') :
    ∃ vs', (list c).Reads vs vs' ∧ List.Forall₂ P vs vs' := by
  obtain ⟨vs', hboth⟩ := exists_forall₂ h
  have hread : List.Forall₂ c.Reads vs vs' := hboth.imp fun _ _ => And.left
  refine ⟨vs', fun rest => ?_, hboth.imp fun _ _ => And.right⟩
  have hn := word_readsBack hlen (vs.flatMap c.encode ++ rest)
  have hmany : decodeMany c.decode vs.length (vs.flatMap c.encode ++ rest) = some (vs', rest) := by
    clear hn hboth hlen h
    induction hread with
    | nil => rfl
    | @cons v v' more more' hv _ ih =>
      have hv := hv (more.flatMap c.encode ++ rest)
      simp only [List.flatMap_cons, List.append_assoc, List.length_cons, decodeMany, hv, ih,
        Option.bind_eq_bind, Option.bind_some]
  simp only [list, List.append_assoc, hn, hmany, Option.bind_eq_bind, Option.bind_some]

/-- A list in few bytes is read item by item. -/
theorem list_reads_of_length {c : Coder α} {P : α → α → Prop} {vs : List α}
    (hpos : ∀ v, 0 < (c.encode v).length) (hlen : ((list c).encode vs).length < UInt64.size)
    (h : ∀ v ∈ vs, (c.encode v).length < UInt64.size → ∃ v', c.Reads v v' ∧ P v v') :
    ∃ vs', (list c).Reads vs vs' ∧ List.Forall₂ P vs vs' := by
  simp only [list, word, nat, List.length_append, Bytes.length_ofNat] at hlen
  have hle := length_le_flatMap hpos vs
  refine list_reads (by omega) fun v hv => h v hv ?_
  have := length_le_of_mem (f := c.encode) hv
  omega

/-- The bytes of both parts of a pair are fewer than those of the pair. -/
theorem length_pair {c : Coder α} {d : Coder β} {a : α} {b : β} {n : Nat}
    (h : ((pair c d).encode (a, b)).length < n) : (c.encode a).length < n ∧ (d.encode b).length < n := by
  simp only [pair, List.length_append] at h
  omega

end Coder

/-! ## Records -/

/-- A block pointer that is written in full. -/
structure BlockPointer.Wordy (p : BlockPointer) : Prop where
  block : p.block < UInt64.size
  count : p.count < UInt32.size
  length : p.length < UInt64.size

/-- A record of a segment that is written in full, but for the statistics. -/
structure SegmentRecord.Wordy (r : SegmentRecord) : Prop where
  start : r.start < UInt64.size
  count : r.count < UInt64.size
  pointer : r.pointer.Wordy

/-- A record of the same values in the same place. -/
structure SegmentRecord.Alike (r r' : SegmentRecord) : Prop where
  start_eq : r'.start = r.start
  count_eq : r'.count = r.count
  pointer_eq : r'.pointer = r.pointer

/-- A record of the same table in the same place. -/
structure TableRecord.Alike (r r' : TableRecord) : Prop where
  name_eq : r'.name = r.name
  definitions_eq : r'.definitions = r.definitions
  rows_eq : r'.rows = r.rows
  segments : List.Forall₂ (List.Forall₂ SegmentRecord.Alike) r.segments r'.segments

namespace Coder

theorem option_readsBack {α : Type} {c : Coder α} {a : Option α}
    (h : ∀ v, a = some v → c.ReadsBack v) : (option c).ReadsBack a := by
  intro rest
  cases a with
  | none => rfl
  | some v =>
    have hv := h v rfl rest
    simp only [option, List.cons_append, hv, Option.map_some]

theorem bytes_readsBack {n : Nat} {b : Bytes} (h : b.length = n) : (bytes n).ReadsBack b := by
  intro rest
  have hs := Bytes.split?_append b rest
  rwa [h] at hs

theorem length_option {α : Type} {c : Coder α} {v : α} :
    ((option c).encode (some v)).length = (c.encode v).length + 1 := rfl

/-- Statistics in few bytes are read with counts of 64 bits. -/
theorem statistics_reads {s : Statistics} (h : (statistics.encode s).length < UInt64.size) :
    ∃ s', statistics.Reads s s' := by
  obtain ⟨-, h⟩ := length_pair h
  obtain ⟨hleast, h⟩ := length_pair h
  obtain ⟨hgreatest, -⟩ := length_pair h
  have hbound {o : Option Scalar} (ho : ((option scalar).encode o).length < UInt64.size) :
      (option scalar).ReadsBack o := option_readsBack fun v hv => scalar_readsBack (by
        subst hv
        rw [length_option] at ho
        omega)
  exact ⟨_, map_reads (pair_reads (type_readsBack _) (pair_reads (hbound hleast)
    (pair_reads (hbound hgreatest) (pair_reads (word_reads _) (pair_reads (word_reads _)
      (bytes_readsBack (Bytes.length_ofNat 128 _)))))))⟩

theorem pointer_readsBack {p : BlockPointer} (h : p.Wordy) : pointer.ReadsBack p :=
  map_readsBack (by rfl) (pair_readsBack (word_readsBack h.block)
    (pair_readsBack (nat_readsBack h.count) (word_readsBack h.length)))

theorem segmentRecord_reads {r : SegmentRecord} (hr : r.Wordy)
    (h : (segmentRecord.encode r).length < UInt64.size) :
    ∃ r', segmentRecord.Reads r r' ∧ r.Alike r' := by
  obtain ⟨-, h⟩ := length_pair h
  obtain ⟨-, h⟩ := length_pair h
  obtain ⟨hs, -⟩ := length_pair h
  obtain ⟨s', hs⟩ := statistics_reads hs
  exact ⟨_, map_reads (pair_reads (word_readsBack hr.start) (pair_reads (word_readsBack hr.count)
    (pair_reads hs (pointer_readsBack hr.pointer)))), rfl, rfl, rfl⟩

/-- What is paired behind something of some bytes has some bytes. -/
theorem length_pos_of_word {α : Type} (d : Coder α) (n : Nat) (a : α) :
    0 < ((pair word d).encode (n, a)).length := by
  simp only [pair, word, nat, List.length_append, Bytes.length_ofNat]
  omega

theorem length_list_pos {α : Type} (c : Coder α) (vs : List α) : 0 < ((list c).encode vs).length := by
  simp only [list, word, nat, List.length_append, Bytes.length_ofNat]
  omega

/-- **Records of tables in few bytes are read.** -/
theorem tableRecord_reads {r : TableRecord} (hrows : r.rows < UInt64.size)
    (hr : ∀ rs ∈ r.segments, ∀ s ∈ rs, s.Wordy)
    (h : (tableRecord.encode r).length < UInt64.size) :
    ∃ r', tableRecord.Reads r r' ∧ r.Alike r' := by
  obtain ⟨hname, h⟩ := length_pair h
  obtain ⟨hdefs, h⟩ := length_pair h
  obtain ⟨-, h⟩ := length_pair h
  obtain ⟨segments, hread, halike⟩ :=
    list_reads_of_length (P := List.Forall₂ SegmentRecord.Alike) (length_list_pos segmentRecord) h
      fun rs hrs hlen => list_reads_of_length (P := SegmentRecord.Alike)
        (fun v => length_pos_of_word _ _ _) hlen fun s hs hlen =>
          segmentRecord_reads (hr rs hrs s hs) hlen
  have hdefinitions : (list definition).ReadsBack r.definitions :=
    list_readsBack_of_length length_definition_pos hdefs fun d _ hd => definition_readsBack hd
  exact ⟨_, map_reads (pair_reads (text_readsBack_of_length hname) (pair_reads hdefinitions
    (pair_reads (word_readsBack hrows) hread))), rfl, rfl, rfl, halike⟩

/-- **The metadata of a checkpoint is read.** -/
theorem metadata_reads {m : CheckpointMetadata} (hi : m.iteration < UInt64.size)
    (hl : m.lastCommit < UInt64.size) (hr : ∀ r ∈ m.tables, r.rows < UInt64.size ∧
      ∀ rs ∈ r.segments, ∀ s ∈ rs, s.Wordy)
    (h : (metadata.encode m).length < UInt64.size) :
    ∃ m', metadata.Reads m m' ∧ m'.iteration = m.iteration ∧ m'.lastCommit = m.lastCommit ∧
      List.Forall₂ TableRecord.Alike m.tables m'.tables := by
  obtain ⟨-, h⟩ := length_pair h
  obtain ⟨-, h⟩ := length_pair h
  obtain ⟨tables, hread, halike⟩ :=
    list_reads_of_length (P := TableRecord.Alike) (fun r => by
      have := length_text r.name
      simp only [tableRecord, map, pair, List.length_append]
      omega) h fun r hm hlen => tableRecord_reads (hr r hm).1 (hr r hm).2 hlen
  exact ⟨_, map_reads (pair_reads (word_readsBack hi) (pair_reads (word_readsBack hl) hread)), rfl,
    rfl, halike⟩

end Coder
end ColumnStore
