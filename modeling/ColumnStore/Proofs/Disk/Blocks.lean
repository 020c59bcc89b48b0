/-
# Block files

What it takes for a block file to be opened (`BlockFile.openFile_ok`).
-/

import ColumnStore.Disk.Blocks
import ColumnStore.Proofs.Attempts

namespace ColumnStore

/-- A header that is read as one of a kind begins with its magic. -/
theorem FileHeader.magic_of_readKind {kind : FileKind} {b : Bytes} {h : FileHeader}
    (hread : readKind kind b = .ok h) : b.take 8 = kind.magic := by
  obtain ⟨h', hh, hread⟩ := bind_eq_ok.mp hread
  have hmagic : h'.magic = kind.magic := by
    by_contra hne
    rw [if_pos hne] at hread
    cases hread
  rw [read] at hh
  split at hh
  · cases hh
  · rename_i front rest hs
    obtain ⟨rfl, hlen⟩ := Bytes.split?_eq_some.mp hs
    simp only at hh
    split at hh
    · obtain rfl := Except.ok.inj hh
      rw [List.take_append_of_le_length (by rw [hlen]; decide)]
      exact hmagic
    · cases hh

theorem FileKind.length_magic (kind : FileKind) : kind.magic.length = 8 := by
  cases kind <;> decide +kernel

/-- **A header that was written is read back**, whatever follows it. -/
theorem FileHeader.readKind_ofKind (kind : FileKind) {parameter : Nat} (hp : parameter < UInt32.size)
    (rest : Bytes) :
    readKind kind ((ofKind kind parameter).encode ++ rest) = .ok (ofKind kind parameter) := by
  have hmagic : (ofKind kind parameter).magic.length = 8 := kind.length_magic
  have hbody : (ofKind kind parameter).body.length = 16 := by
    simp only [body, List.length_append, hmagic, Bytes.length_ofNat]
  have hlen : (ofKind kind parameter).encode.length = length := by
    rw [encode, List.length_append, hbody, Bytes.length_ofNat]
    rfl
  have h1 : (ofKind kind parameter).encode.take 8 = kind.magic := by
    rw [encode, body, List.append_assoc, List.append_assoc, List.append_assoc]
    exact List.take_left' hmagic
  have h2 : ((ofKind kind parameter).encode.drop 8).take 2 = Bytes.ofNat 2 currentVersion := by
    rw [encode, body, List.append_assoc, List.append_assoc, List.append_assoc,
      List.drop_left' hmagic]
    exact List.take_left' (Bytes.length_ofNat 2 _)
  have h3 : ((ofKind kind parameter).encode.drop 10).take 2 = Bytes.ofNat 2 0 := by
    rw [encode, body, List.append_assoc, List.append_assoc,
      List.drop_left' (by rw [List.length_append, hmagic, Bytes.length_ofNat])]
    exact List.take_left' (Bytes.length_ofNat 2 _)
  have h4 : ((ofKind kind parameter).encode.drop 12).take 4 = Bytes.ofNat 4 parameter := by
    rw [encode, body, List.append_assoc,
      List.drop_left' (by simp only [List.length_append, hmagic, Bytes.length_ofNat])]
    exact List.take_left' (Bytes.length_ofNat 4 _)
  have h5 : (ofKind kind parameter).encode.take 16 = (ofKind kind parameter).body := by
    rw [encode]
    exact List.take_left' hbody
  have h6 : ((ofKind kind parameter).encode.drop 16).take 4 =
      Bytes.ofNat 4 (ofKind kind parameter).checksum := by
    rw [encode, List.drop_left' hbody]
    exact List.take_of_length_le (Nat.le_of_eq (Bytes.length_ofNat 4 _))
  have hversion : currentVersion % Bytes.bound 2 = currentVersion := by decide
  have hparameter : parameter % Bytes.bound 4 = parameter := Nat.mod_eq_of_lt hp
  have hchecksum : (ofKind kind parameter).checksum % Bytes.bound 4 =
      (ofKind kind parameter).checksum := Nat.mod_eq_of_lt (UInt32.toNat_lt _)
  have hread : read ((ofKind kind parameter).encode ++ rest) = .ok (ofKind kind parameter) := by
    rw [read, ← hlen, Bytes.split?_append]
    simp only [h1, h2, h3, h4, h5, h6, Bytes.toNat_ofNat, hversion, hparameter, hchecksum]
    exact if_pos rfl
  rw [readKind, hread]
  change (if kind.magic ≠ kind.magic then _ else if currentVersion ≠ currentVersion then _ else _) = _
  rw [if_neg (fun h => h rfl), if_neg (fun h => h rfl)]
  rfl

namespace BlockFile

/-- What a block file is when it is opened. -/
structure OpenedAt (d : Disk) (path : String) (f : BlockFile) : Prop where
  find : d.find path = .ok f.file
  header : ∃ h, FileHeader.readKind .blockFile (d.bytes f.file) = .ok h ∧ h.parameter = f.blockSize
  path_eq : f.path = path
  least : leastBlockSize ≤ f.blockSize
  length_eq : (d.bytes f.file).length = headerArea + f.blocks * f.blockSize
  readable : f.writable = false

/-- **A block file that is opened** has a header and whole blocks. -/
theorem openFile_ok {d : Disk} {path : String} {f : BlockFile} :
    openFile d path = .ok f ↔ OpenedAt d path f := by
  rw [openFile]
  cases hf : d.find path with
  | error e =>
    constructor
    · intro h
      cases h
    · intro h
      rw [h.find] at hf
      cases hf
  | ok file =>
    simp only
    constructor
    · intro h
      split at h
      · cases h
      · split at h
        · cases h
        · rename_i header hread
          split at h
          · cases h
          · rename_i hleast
            split at h
            · cases h
            · rename_i hlen
              simp only [Bool.or_eq_true, decide_eq_true_eq, not_or, Nat.not_lt,
                not_not] at hlen
              obtain rfl := Except.ok.inj h
              refine ⟨hf, ⟨header, hread, rfl⟩, rfl, Nat.le_of_not_lt hleast, ?_, rfl⟩
              rw [Nat.div_mul_cancel (Nat.dvd_of_mod_eq_zero hlen.2)]
              exact (Nat.add_sub_cancel' hlen.1).symm
    · rintro ⟨hfind, ⟨header, hread, hsize⟩, hpath, hleast, hlen, hwritable⟩
      obtain rfl := Except.ok.inj (hf.symm.trans hfind)
      have hpos : 0 < f.blockSize := Nat.lt_of_lt_of_le (by decide) hleast
      have hlong : FileHeader.length ≤ headerArea := by decide
      rw [if_neg (by omega), hread]
      simp only [hsize]
      rw [if_neg (Nat.not_lt_of_le hleast), hlen, Nat.add_sub_cancel_left, Nat.mul_mod_left,
        Nat.mul_div_cancel _ hpos, if_neg (by simp)]
      obtain ⟨path', blockSize, file, blocks, writable⟩ := f
      obtain rfl : path' = path := hpath
      obtain rfl : writable = false := hwritable
      rfl

end BlockFile
end ColumnStore
