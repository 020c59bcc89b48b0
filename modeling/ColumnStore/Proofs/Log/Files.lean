/-
# The log in its file

A log file is a header and whole frames (`Log.Holds`).  Its entries are read back, and entries that
are written come behind them.
-/

import ColumnStore.Log.File
import ColumnStore.Proofs.Log.Frames

namespace ColumnStore

namespace Disk

/-- Where a path leads does not depend on what is in files. -/
theorem find_congr {d d' : Disk} (h : d'.entries = d.entries) (path : String) :
    d'.find path = d.find path := by
  obtain ⟨entries, contents⟩ := d
  obtain ⟨entries', contents'⟩ := d'
  obtain rfl : entries' = entries := h
  rfl

theorem contains_of_find {d : Disk} {path : String} {file : FileId} (h : d.find path = .ok file) :
    d.contains path = true := by
  obtain ⟨p, hp, -⟩ := bind_eq_ok.mp h
  rw [contains, hp]

theorem read_of_find {d : Disk} {path : String} {file : FileId} (h : d.find path = .ok file) :
    d.read path = .ok (d.bytes file) := by
  rw [read, h]
  rfl

theorem bytes_write {d : Disk} {file : FileId} (h : file < d.contents.size) (b : Bytes) :
    (d.write file b).bytes file = b := by
  rw [bytes, write, Array.getD_eq_getD_getElem?, Array.getElem?_setIfInBounds_self_of_lt h]
  rfl

theorem size_write (d : Disk) (file : FileId) (b : Bytes) :
    (d.write file b).contents.size = d.contents.size := Array.size_setIfInBounds

theorem overwrite_length (b new : Bytes) : b.overwrite b.length new = b ++ new := by
  simp [Bytes.overwrite]

/-- **What is written at the end of a file comes behind what is there.** -/
theorem bytes_writeAt_end {d : Disk} {file : FileId} (h : file < d.contents.size) (b : Bytes) :
    (d.writeAt file (d.bytes file).length b).bytes file = d.bytes file ++ b := by
  unfold writeAt
  split
  · rename_i hb
    rw [List.isEmpty_iff.mp hb, List.append_nil]
  · rw [bytes_write h, overwrite_length]

theorem entries_writeAt (d : Disk) (file : FileId) (start : Nat) (b : Bytes) :
    (d.writeAt file start b).entries = d.entries := by
  unfold writeAt
  split <;> rfl

theorem size_writeAt (d : Disk) (file : FileId) (start : Nat) (b : Bytes) :
    (d.writeAt file start b).contents.size = d.contents.size := by
  unfold writeAt
  split
  · rfl
  · exact size_write d file _

end Disk

namespace Log

/-- The header of a log. -/
def IsHeader (b : Bytes) : Prop :=
  b.length = FileHeader.length ∧ ∃ h, FileHeader.readKind .log b = .ok h

theorem isHeader_ofKind : IsHeader (FileHeader.ofKind .log 0).encode :=
  ⟨by decide, FileHeader.ofKind .log 0, by decide +kernel⟩

/-- A header is read whatever follows. -/
theorem IsHeader.read {b : Bytes} (h : IsHeader b) (rest : Bytes) :
    ∃ header, FileHeader.readKind .log (b ++ rest) = .ok header := by
  obtain ⟨hlen, header, hread⟩ := h
  refine ⟨header, ?_⟩
  have hsplit : Bytes.split? FileHeader.length (b ++ rest) = some (b, rest) := by
    rw [← hlen]
    exact Bytes.split?_append b rest
  have hsplit' : Bytes.split? FileHeader.length b = some (b, []) := by
    have := Bytes.split?_append b []
    rwa [hlen, List.append_nil] at this
  rw [FileHeader.readKind, FileHeader.read, hsplit'] at hread
  rw [FileHeader.readKind, FileHeader.read, hsplit]
  exact hread

/-- A path that leads to a log of entries, each with the place behind it. -/
structure Holds (d : Disk) (path : String) (file : FileId) (es : List (LogEntry × Nat)) : Prop where
  find : d.find path = .ok file
  inside : file < d.contents.size
  bytes : ∃ header body, d.bytes file = header ++ body ∧ IsHeader header ∧
    Frame.Frames FileHeader.length body es

variable {d : Disk} {path : String} {file : FileId} {es : List (LogEntry × Nat)}

/-- **The entries of a log are read.** -/
theorem Holds.read (h : Holds d path file es) :
    Log.read d path = .ok { entries := es, validLength := (d.bytes file).length } := by
  obtain ⟨header, body, hb, hh, hf⟩ := h.bytes
  obtain ⟨fields, hfields⟩ := hh.read body
  have hlen : (header ++ body).length = FileHeader.length + body.length := by
    rw [List.length_append, hh.1]
  have hdrop : (header ++ body).drop FileHeader.length = body := by
    rw [← hh.1]
    exact List.drop_left
  rw [Log.read, Disk.contains_of_find h.find, Disk.read_of_find h.find, hb]
  simp only [Bool.not_true, Bool.false_eq_true, if_false, hlen,
    if_neg (show ¬FileHeader.length + body.length < FileHeader.length by omega), hfields, hdrop]
  exact hf.readAll_eq

/-- **Entries that are written come behind the others.** -/
theorem Holds.append (h : Holds d path file es) {entries : List LogEntry}
    (hw : ∀ e ∈ entries, e.Wordy) {b : Bytes} (hb : Frame.encodeAll entries = .ok b) :
    ∃ more, more.map (·.1) = entries ∧
      Holds (d.writeAt file (d.bytes file).length b) path file (es ++ more) := by
  obtain ⟨header, body, hbytes, hh, hf⟩ := h.bytes
  obtain ⟨more, hmore, hmap⟩ := Frame.frames_encodeAll hw hb (FileHeader.length + body.length)
  refine ⟨more, hmap, ?_, by rw [Disk.size_writeAt]; exact h.inside, header, body ++ b, ?_, hh,
    hf.append hmore⟩
  · rw [Disk.find_congr (Disk.entries_writeAt d file _ b)]
    exact h.find
  · rw [Disk.bytes_writeAt_end h.inside, hbytes, List.append_assoc]

end Log
end ColumnStore
