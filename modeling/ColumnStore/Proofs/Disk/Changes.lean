/-
# Changes of one file

What is done to the bytes of a file leaves names and all other files alone (`Disk.SameBut`).  The
log lies in a directory of its own, where it is found, made again and cut off.
-/

import ColumnStore.Database.Open
import ColumnStore.Proofs.Log.Files

namespace ColumnStore
namespace Disk

variable {d d₁ d₂ : Disk} {file : FileId}

/-- Two disks with the same names that differ at most in the bytes of one file. -/
structure SameBut (file : FileId) (d d' : Disk) : Prop where
  entries_eq : d'.entries = d.entries
  size_eq : d'.contents.size = d.contents.size
  bytes_eq : ∀ f, f ≠ file → d'.bytes f = d.bytes f

namespace SameBut

theorem refl (file : FileId) (d : Disk) : SameBut file d d := ⟨rfl, rfl, fun _ _ => rfl⟩

theorem trans (h : SameBut file d d₁) (h' : SameBut file d₁ d₂) : SameBut file d d₂ where
  entries_eq := h'.entries_eq.trans h.entries_eq
  size_eq := h'.size_eq.trans h.size_eq
  bytes_eq f hf := (h'.bytes_eq f hf).trans (h.bytes_eq f hf)

theorem write (file : FileId) (d : Disk) (b : Bytes) : SameBut file d (d.write file b) where
  entries_eq := rfl
  size_eq := size_write d file b
  bytes_eq f hf := by
    rw [bytes, bytes, Disk.write, Array.getD_eq_getD_getElem?, Array.getD_eq_getD_getElem?,
      Array.getElem?_setIfInBounds_ne hf.symm]

theorem writeAt (file : FileId) (d : Disk) (start : Nat) (b : Bytes) :
    SameBut file d (d.writeAt file start b) := by
  unfold Disk.writeAt
  split
  · exact refl file d
  · exact write file d _

theorem setLength (file : FileId) (d : Disk) (n : Nat) : SameBut file d (d.setLength file n) :=
  write file d _

theorem find_eq (h : SameBut file d d₁) (path : String) : d₁.find path = d.find path :=
  find_congr h.entries_eq path

theorem contains_eq (h : SameBut file d d₁) (path : String) : d₁.contains path = d.contains path := by
  obtain ⟨entries, contents⟩ := d
  obtain ⟨entries', contents'⟩ := d₁
  obtain rfl : entries' = entries := h.entries_eq
  rfl

/-- Other files are read as before. -/
theorem read_eq (h : SameBut file d d₁) {path : String} (hp : d.find path ≠ .ok file) :
    d₁.read path = d.read path := by
  rw [read, read, h.find_eq path]
  cases hf : d.find path with
  | error e => rfl
  | ok f => exact congrArg Except.ok (h.bytes_eq f fun heq => hp (heq ▸ hf))

end SameBut

/-- A file that is cut off. -/
theorem bytes_setLength (h : file < d.contents.size) {n : Nat} (hn : n ≤ (d.bytes file).length) :
    (d.setLength file n).bytes file = (d.bytes file).take n := by
  rw [setLength, bytes_write h, Bytes.padTo, List.length_take, Nat.min_eq_left hn, Nat.sub_self,
    List.replicate_zero, List.append_nil]

/-! ## The file of the log -/

theorem names_log : names (Log.path Database.logDirectory) = ["wal", "strata.wal"] := by
  decide +kernel

theorem checkPath_log : checkPath (Log.path Database.logDirectory) = .ok () :=
  eq_ok_of_toOption (by decide +kernel)

theorem origin_log : origin (Log.path Database.logDirectory) = [] := by decide +kernel

/-- A step to a name that is neither empty nor made of points. -/
theorem step_eq (d : Disk) (p : Place) {name : String} (h : name ≠ "" ∧ name ≠ "." ∧ name ≠ "..")
    (hlen : name.utf8ByteSize ≤ longestName) :
    d.step p name = if d.isDirectory p then
      if (d.entry? (p ++ [name])).isSome then .ok (p ++ [name]) else .error .notFound
    else .error .notDirectory := by
  have hname : ¬(name = "" ∨ name = ".") := fun hn => hn.elim h.1 h.2.1
  rw [step, child]
  cases hd : d.isDirectory p with
  | false => rfl
  | true =>
    simp only [Bool.not_true, Bool.false_eq_true, if_false, if_neg hname, if_neg h.2.2,
      if_neg (Nat.not_lt_of_le hlen), ok_bind, if_true]
    rfl

theorem isDirectory_root (d : Disk) : d.isDirectory [] = true := by
  rw [isDirectory, entry?, if_pos (Or.inl rfl)]
  rfl

theorem step_wal (d : Disk) : d.step [] "wal" =
    if (d.entry? ["wal"]).isSome then .ok ["wal"] else .error .notFound := by
  rw [step_eq d [] (by decide) (by decide), if_pos d.isDirectory_root]
  rfl

theorem walk_wal (h : d.entry? ["wal"] = some .directory) :
    ["wal"].foldlM d.step [] = .ok ["wal"] := by
  change (d.step [] "wal" >>= fun p => pure p) = _
  rw [step_wal, h]
  rfl

/-- Where a log is found, it lies in its directory. -/
theorem log_entries (h : d.find (Log.path Database.logDirectory) = .ok file) :
    d.entry? ["wal"] = some .directory ∧ d.entry? ["wal", "strata.wal"] = some (.file file) := by
  obtain ⟨p, hp, hentry⟩ := bind_eq_ok.mp h
  rw [locate, checkPath_log, ok_bind, names_log, origin_log] at hp
  obtain ⟨q, hq, hp⟩ := bind_eq_ok.mp hp
  obtain ⟨q', hq', hp⟩ := bind_eq_ok.mp hp
  obtain rfl := Except.ok.inj hp
  rw [step_wal] at hq
  split at hq
  · obtain rfl := Except.ok.inj hq
    rw [step_eq d _ (by decide) (by decide)] at hq'
    split at hq'
    · rename_i hdir
      split at hq'
      · obtain rfl := Except.ok.inj hq'
        refine ⟨by simpa [isDirectory] using hdir, ?_⟩
        split at hentry
        · rename_i hfile
          obtain rfl := Except.ok.inj hentry
          exact hfile
        · cases hentry
      · cases hq'
    · cases hq'
  · cases hq

/-- The directory of a log is not made again. -/
theorem makeDirectory_log (h : d.find (Log.path Database.logDirectory) = .ok file) :
    d.makeDirectoryAt Database.logDirectory = (.ok (), d) := by
  obtain ⟨hdir, -⟩ := log_entries h
  have hcheck : checkPath Database.logDirectory = .ok () := eq_ok_of_toOption (by decide +kernel)
  have hnames : innerNames Database.logDirectory = ["wal"] := by decide +kernel
  have hchild : d.child [] "wal" = .ok ["wal"] := by
    rw [child, d.isDirectory_root]
    rfl
  have hmake : d.makeDirectory ["wal"] = .error .alreadyExists := by
    rw [makeDirectory]
    change (do
      let p ← d.child [] "wal"
      if (d.entry? p).isSome then throw FileError.alreadyExists
      pure (d.setEntry p .directory)) = _
    rw [hchild, ok_bind, hdir]
    rfl
  have hensure : d.ensureDirectory ["wal"] = .ok d := by
    rw [ensureDirectory, List.reverse_singleton, hmake, walk_wal hdir]
    simp only
    rw [if_pos (by simp [isDirectory, hdir])]
  rw [makeDirectoryAt, hcheck, hnames]
  simp only [makeDirectories, hensure]

/-- A log that is made again is emptied. -/
theorem create_again (h : d.find (Log.path Database.logDirectory) = .ok file) :
    d.create (Log.path Database.logDirectory) = .ok (file, d.write file []) := by
  obtain ⟨hdir, hfile⟩ := log_entries h
  have hchild : d.child ["wal"] "strata.wal" = .ok ["wal", "strata.wal"] := by
    rw [child, show d.isDirectory ["wal"] = true by simp [isDirectory, hdir]]
    rfl
  have hplace : d.placeFor (Log.path Database.logDirectory) = .ok ["wal", "strata.wal"] := by
    have hbody : ["wal", "strata.wal"].reverse.dropWhile (· = "") = ["strata.wal", "wal"] := by
      decide
    rw [placeFor, checkPath_log, ok_bind, names_log, origin_log]
    simp only [hbody]
    rw [show (List.drop 1 ["strata.wal", "wal"]).reverse = ["wal"] from rfl, walk_wal hdir, ok_bind,
      List.headD_cons, hchild]
    rfl
  rw [create, hplace, ok_bind]
  simp only [hfile]
  rfl

end Disk
end ColumnStore
