/-
# Payloads in block files

A payload that is written to fresh blocks is read back (`BlockFile.write_ok`), and stays where it is
when more payloads are written behind it (`BlockFile.Continues.read`).

A pointer leads to a payload only if its blocks are all in the file and hold just as many bytes as it
says (`BlockFile.read_eq_ok_iff`).  Any other pointer is refused as damaged, as long as its numbers
stay inside the words that they are counted in (`BlockFile.read_refused`): the sum of the first two
is made in 64 bits before it is compared with the number of blocks, and room for the payload is made
before there is a payload.
-/

import ColumnStore.Proofs.Disk.Names

namespace ColumnStore
namespace BlockFile

/-! ## Blocks -/

section Blocks

variable {blockSize count : Nat} {part payload : Bytes}

theorem length_encodeBlock (h : part.length + blockHeader ≤ blockSize) :
    (encodeBlock blockSize part).length = blockSize := by
  have hlen : part.length + 8 ≤ blockSize := h
  simp only [encodeBlock, Bytes.padTo, List.length_append, Bytes.length_ofNat,
    List.length_replicate]
  omega

/-- **A block is read back.** -/
theorem decodeBlock_encodeBlock (h : part.length + blockHeader ≤ blockSize)
    (hs : blockSize < UInt32.size) : decodeBlock blockSize (encodeBlock blockSize part) = .ok part := by
  have hlen : part.length + 8 ≤ blockSize := h
  have hcrc : ((crc32 part).toNat) < Bytes.bound 4 := UInt32.toNat_lt _
  have hpart : part.length < Bytes.bound 4 := by
    have : UInt32.size = Bytes.bound 4 := by decide
    omega
  have hshape : encodeBlock blockSize part =
      Bytes.ofNat 4 (crc32 part).toNat ++ (Bytes.ofNat 4 part.length ++ (part ++
        List.replicate (blockSize - (4 + 4 + part.length)) 0)) := by
    simp only [encodeBlock, Bytes.padTo, List.append_assoc, List.length_append, Bytes.length_ofNat,
      Nat.add_assoc]
  have hdrop4 : (encodeBlock blockSize part).drop 4 = Bytes.ofNat 4 part.length ++ (part ++
      List.replicate (blockSize - (4 + 4 + part.length)) 0) := by
    rw [hshape]
    exact List.drop_left' (Bytes.length_ofNat 4 _)
  have hdrop8 : (encodeBlock blockSize part).drop blockHeader = part ++
      List.replicate (blockSize - (4 + 4 + part.length)) 0 := by
    rw [show blockHeader = 4 + 4 from rfl, ← List.drop_drop, hdrop4]
    exact List.drop_left' (Bytes.length_ofNat 4 _)
  have htake : (encodeBlock blockSize part).take 4 = Bytes.ofNat 4 (crc32 part).toNat := by
    rw [hshape]
    exact List.take_left' (Bytes.length_ofNat 4 _)
  have hused : Bytes.toNat (((encodeBlock blockSize part).drop 4).take 4) = part.length := by
    rw [hdrop4, List.take_left' (Bytes.length_ofNat 4 _), Bytes.toNat_ofNat,
      Nat.mod_eq_of_lt hpart]
  have hfits : ¬blockSize - blockHeader < part.length := Nat.not_lt_of_le (Nat.le_sub_of_add_le h)
  rw [decodeBlock]
  simp only [hused, if_neg hfits, hdrop8, List.take_left, htake, Bytes.toNat_ofNat,
    Nat.mod_eq_of_lt hcrc, if_true]

theorem length_flatMap_parts (hb : blockHeader ≤ blockSize) (count : Nat) (payload : Bytes) :
    ((parts (blockSize - blockHeader) count payload).flatMap (encodeBlock blockSize)).length =
      count * blockSize := by
  induction count generalizing payload with
  | zero => simp [parts]
  | succ n ih =>
    rw [parts, List.flatMap_cons, List.length_append, ih, length_encodeBlock, Nat.succ_mul,
      Nat.add_comm]
    rw [List.length_take]
    omega

/-- **Blocks are read back.** -/
theorem decodeBlocks_parts (hb : blockHeader ≤ blockSize) (hs : blockSize < UInt32.size)
    (h : payload.length ≤ count * (blockSize - blockHeader)) :
    decodeBlocks blockSize count
      ((parts (blockSize - blockHeader) count payload).flatMap (encodeBlock blockSize)) =
      .ok payload := by
  induction count generalizing payload with
  | zero =>
    rw [Nat.zero_mul] at h
    rw [List.eq_nil_of_length_eq_zero (Nat.le_zero.mp h)]
    rfl
  | succ n ih =>
    have hpart : (payload.take (blockSize - blockHeader)).length + blockHeader ≤ blockSize := by
      rw [List.length_take]
      omega
    have hrest : (payload.drop (blockSize - blockHeader)).length ≤ n * (blockSize - blockHeader) := by
      rw [Nat.succ_mul] at h
      rw [List.length_drop]
      omega
    rw [parts, List.flatMap_cons, decodeBlocks, List.take_left' (length_encodeBlock hpart),
      List.drop_left' (length_encodeBlock hpart), decodeBlock_encodeBlock hpart hs, ok_bind, ih hrest,
      ok_bind, List.take_append_drop]
    rfl

/-- A payload fits into its blocks. -/
theorem le_blocksFor {capacity : Nat} (h : 0 < capacity) (length : Nat) :
    length ≤ blocksFor capacity length * capacity := by
  have hdiv : length ≤ (length + capacity - 1) / capacity * capacity := by
    have := Nat.div_add_mod (length + capacity - 1) capacity
    have := Nat.mod_lt (length + capacity - 1) h
    rw [Nat.mul_comm]
    omega
  exact Nat.le_trans hdiv (Nat.mul_le_mul_right _ (Nat.le_max_right _ _))

end Blocks

/-! ## Files of blocks -/

/-- A block file with nothing behind its blocks. -/
structure Whole (f : BlockFile) (d : Disk) : Prop where
  inside : f.file < d.contents.size
  length_eq : (d.bytes f.file).length = headerArea + f.blocks * f.blockSize
  least : leastBlockSize ≤ f.blockSize
  small : f.blockSize < UInt32.size

/-- A block file to which blocks may have been added. -/
structure Continues (f : BlockFile) (d : Disk) (f' : BlockFile) (d' : Disk) : Prop where
  sameBut : Disk.SameBut f.file d d'
  path_eq : f'.path = f.path
  file_eq : f'.file = f.file
  blockSize_eq : f'.blockSize = f.blockSize
  blocks_le : f.blocks ≤ f'.blocks
  bytes_prefix : d.bytes f.file <+: d'.bytes f.file

namespace Continues

variable {f f' f₁ : BlockFile} {d d' d₁ : Disk}

theorem refl (f : BlockFile) (d : Disk) : Continues f d f d :=
  ⟨.refl _ d, rfl, rfl, rfl, Nat.le_refl _, List.prefix_refl _⟩

theorem trans (h : Continues f d f₁ d₁) (h' : Continues f₁ d₁ f' d') : Continues f d f' d' where
  sameBut := h.sameBut.trans (h.file_eq ▸ h'.sameBut)
  path_eq := h'.path_eq.trans h.path_eq
  file_eq := h'.file_eq.trans h.file_eq
  blockSize_eq := h'.blockSize_eq.trans h.blockSize_eq
  blocks_le := Nat.le_trans h.blocks_le h'.blocks_le
  bytes_prefix := h.bytes_prefix.trans (h.file_eq ▸ h'.bytes_prefix)

/-- **What was read before is read again.** -/
theorem read (h : Continues f d f' d') {p : BlockPointer} {b : Bytes} (hr : f.read d p = .ok b) :
    f'.read d' p = .ok b := by
  obtain ⟨more, hmore⟩ := h.bytes_prefix
  rw [BlockFile.read] at hr ⊢
  simp only [h.file_eq, h.blockSize_eq, ← hmore] at hr ⊢
  split at hr
  · cases hr
  · rename_i hword
    rw [if_neg hword]
    split at hr
    · cases hr
    · rename_i hblocks
      simp only [Bool.or_eq_true, decide_eq_true_eq, not_or, Nat.not_lt] at hblocks
      rw [if_neg (by simpa using ⟨hblocks.1, Nat.le_trans hblocks.2 h.blocks_le⟩)]
      split at hr
      · cases hr
      · rename_i raw hraw
        rw [Bytes.slice?] at hraw ⊢
        split at hraw
        · rename_i hlen
          obtain rfl := Option.some.inj hraw
          rw [if_pos (Nat.le_trans hlen (by rw [List.length_append]; omega)), List.drop_append,
            List.take_append_of_le_length (by rw [List.length_drop]; omega)]
          simp only
          split at hr
          · cases hr
          · rename_i hlongest
            rw [if_neg hlongest]
            split at hr
            · cases hr
            · split at hr
              · rename_i payload hp _ hpayload
                simp only [hpayload]
                exact hr
              · cases hr
        · cases hraw

end Continues

/-- **A payload that is written is in the blocks that the pointer names.** -/
structure Holds (f : BlockFile) (d : Disk) (p : BlockPointer) (payload : Bytes) : Prop where
  length_eq : p.length = payload.length
  count_lt : p.count < UInt32.size
  inside : p.block + p.count ≤ f.blocks
  fits : payload.length ≤ p.count * f.blockSize
  read : p.block + p.count < UInt64.size → payload.length ≤ Bytes.longest → f.read d p = .ok payload

/-- A payload stays when more is written. -/
theorem Holds.continues {f f' : BlockFile} {d d' : Disk} {p : BlockPointer} {payload : Bytes}
    (h : Holds f d p payload) (hc : Continues f d f' d') : Holds f' d' p payload where
  length_eq := h.length_eq
  count_lt := h.count_lt
  inside := Nat.le_trans h.inside hc.blocks_le
  fits := hc.blockSize_eq ▸ h.fits
  read hblocks hlen := hc.read (h.read hblocks hlen)

variable {f f' : BlockFile} {d d' : Disk} {payload : Bytes} {p : BlockPointer}

/-- **A payload in a file that is not too long can be read.** -/
theorem Holds.read_ok (h : Holds f d p payload) (hf : f.Whole d)
    (hlong : (d.bytes f.file).length ≤ Bytes.longest) :
    f.read d p = .ok payload ∧ p.block + p.count < UInt64.size ∧ payload.length < UInt64.size := by
  have hlen := hf.length_eq
  have hblocks : f.blocks ≤ f.blocks * f.blockSize :=
    Nat.le_mul_of_pos_right _ (Nat.lt_of_lt_of_le (by decide) hf.least)
  have hcount : p.count * f.blockSize ≤ f.blocks * f.blockSize :=
    Nat.mul_le_mul_right _ (Nat.le_trans (Nat.le_add_left _ _) h.inside)
  have hlongest : Bytes.longest < UInt64.size := by decide
  have hinside := h.inside
  have hfits := h.fits
  exact ⟨h.read (by omega) (by omega), by omega, by omega⟩

/-- **A payload that is written is read back,** and nothing that was there before is lost. -/
theorem write_ok (h : f.Whole d) (hok : f.write d payload = .ok (p, f', d')) :
    f'.Whole d' ∧ Continues f d f' d' ∧ Holds f' d' p payload := by
  have hheader : blockHeader ≤ f.blockSize := Nat.le_trans (by decide) h.least
  have hcapacity : 0 < f.capacity := Nat.sub_pos_of_lt (Nat.lt_of_lt_of_le (by decide) h.least)
  rw [write] at hok
  simp only at hok
  split at hok
  · cases hok
  rename_i hcount32
  split at hok
  · cases hok
  obtain ⟨rfl, rfl, rfl⟩ : _ ∧ _ ∧ _ := by simpa using hok
  clear hok
  generalize hcount : blocksFor f.capacity payload.length = count at hcount32 ⊢
  have hbytes : (d.writeAt f.file (headerArea + f.blocks * f.blockSize)
      ((parts f.capacity count payload).flatMap (encodeBlock f.blockSize))).bytes f.file =
      d.bytes f.file ++ (parts f.capacity count payload).flatMap (encodeBlock f.blockSize) := by
    rw [← h.length_eq]
    exact Disk.bytes_writeAt_end h.inside _
  have hlen : ((parts f.capacity count payload).flatMap (encodeBlock f.blockSize)).length =
      count * f.blockSize := length_flatMap_parts hheader count payload
  have hfit : payload.length ≤ count * f.capacity := hcount ▸ le_blocksFor hcapacity payload.length
  refine ⟨⟨?_, ?_, h.least, h.small⟩, ⟨Disk.SameBut.writeAt _ d _ _, rfl, rfl, rfl,
    Nat.le_add_right _ _, ?_⟩, rfl, Nat.lt_of_not_le hcount32, Nat.le_refl _,
    Nat.le_trans hfit (Nat.mul_le_mul_left _ (Nat.sub_le _ _)), fun hword hlongest => ?_⟩
  · dsimp only
    rw [Disk.size_writeAt]
    exact h.inside
  · dsimp only
    rw [hbytes, List.length_append, hlen, h.length_eq, Nat.add_mul, Nat.add_assoc]
  · rw [hbytes]
    exact List.prefix_append _ _
  · have hpos : 0 < count := hcount ▸ Nat.le_max_left 1 _
    have hslice : (d.bytes f.file ++ (parts f.capacity count payload).flatMap
        (encodeBlock f.blockSize)).slice? (headerArea + f.blocks * f.blockSize)
        (count * f.blockSize) =
        some ((parts f.capacity count payload).flatMap (encodeBlock f.blockSize)) := by
      rw [Bytes.slice?, if_pos (Nat.le_of_eq (by rw [List.length_append, hlen, h.length_eq])),
        ← h.length_eq, List.drop_left, ← hlen, List.take_length]
    have hdecode : decodeBlocks f.blockSize count
        ((parts f.capacity count payload).flatMap (encodeBlock f.blockSize)) = .ok payload :=
      decodeBlocks_parts hheader h.small hfit
    rw [read]
    simp only [hbytes, hslice]
    have hin : ¬(decide (count ≠ 0) && decide (UInt64.size ≤ f.blocks + count)) = true := by
      rw [Bool.and_eq_true, decide_eq_true_eq, decide_eq_true_eq]
      exact fun hc => Nat.not_le_of_lt hword hc.2
    rw [if_neg hin, if_neg (by simpa using Nat.ne_of_gt hpos),
      if_neg (Nat.not_lt_of_le hlongest)]
    simp only [hdecode, if_true]

/-- **A new block file** has no blocks. -/
theorem create_ok {name : String} (hname : Disk.Plain name) (hd : d.entry? [name] = none)
    {blockSize : Nat} (hok : create d name blockSize = .ok (f, d')) :
    f.Whole d' ∧ f.file = d.contents.size ∧ f.path = name ∧
      d'.entries = (d.withFile [name]).entries ∧ d'.contents.size = d.contents.size + 1 ∧
      (∀ g, g < d.contents.size → d'.bytes g = d.bytes g) ∧
      d'.bytes f.file = Bytes.padTo headerArea (FileHeader.ofKind .blockFile blockSize).encode ∧
      f.blockSize = blockSize ∧ f.blocks = 0 := by
  rw [create] at hok
  split at hok
  · cases hok
  · rename_i hsize
    simp only [Bool.or_eq_true, decide_eq_true_eq, not_or, Nat.not_lt, Nat.not_le] at hsize
    rw [hname.create_new hd] at hok
    simp only at hok
    obtain ⟨rfl, rfl⟩ := Prod.mk.inj (Except.ok.inj hok)
    have hin : d.contents.size < (d.withFile [name]).contents.size :=
      Nat.lt_of_lt_of_eq (Nat.lt_succ_self _) (Array.size_push ..).symm
    have hlen : (Bytes.padTo headerArea (FileHeader.ofKind .blockFile blockSize).encode).length =
        headerArea := by
      have hmagic : FileKind.blockFile.magic.length = 8 := by decide +kernel
      simp only [Bytes.padTo, FileHeader.encode, FileHeader.body, FileHeader.ofKind,
        List.length_append, Bytes.length_ofNat, List.length_replicate, hmagic, headerArea]
    have hsame := Disk.SameBut.write d.contents.size (d.withFile [name])
      (Bytes.padTo headerArea (FileHeader.ofKind .blockFile blockSize).encode)
    refine ⟨⟨hsame.size_eq ▸ hin, ?_, hsize.1, hsize.2⟩, rfl, rfl, hsame.entries_eq, ?_,
      fun g hg => ?_, Disk.bytes_write hin _, rfl, rfl⟩
    · rw [Disk.bytes_write hin, hlen]
      simp
    · rw [hsame.size_eq]
      exact Array.size_push ..
    · rw [hsame.bytes_eq g (Nat.ne_of_lt hg)]
      exact (Disk.Grows.withFile d.contents.size d [name]).bytes_eq g hg (Nat.ne_of_lt hg)

end BlockFile

/-! ## Pointers into block files -/

namespace BlockFile

variable {f : BlockFile} {d : Disk} {p : BlockPointer}

/-- The bytes of the blocks that a pointer names. -/
def blocksAt? (f : BlockFile) (d : Disk) (p : BlockPointer) : Option Bytes :=
  (d.bytes f.file).slice? (headerArea + p.block * f.blockSize) (p.count * f.blockSize)

/-- **Blocks of a whole file are there,** behind the header. -/
theorem blocksAt?_of_le (h : f.Whole d) (hin : p.block + p.count ≤ f.blocks) :
    ∃ raw, f.blocksAt? d p = some raw ∧ raw.length = p.count * f.blockSize := by
  have hle : headerArea + p.block * f.blockSize + p.count * f.blockSize ≤
      (d.bytes f.file).length := by
    rw [h.length_eq, Nat.add_assoc, ← Nat.add_mul]
    exact Nat.add_le_add_left (Nat.mul_le_mul_right _ hin) _
  refine ⟨_, if_pos hle, ?_⟩
  rw [List.length_take, List.length_drop]
  omega

/-- The words that a pointer is followed with do not overflow. -/
structure InWords (p : BlockPointer) : Prop where
  blocks : p.block + p.count < UInt64.size
  length : p.length ≤ Bytes.longest

/-- A pointer in words is read in three steps. -/
theorem read_eq (hw : InWords p) : f.read d p =
    (if p.count = 0 ∨ f.blocks < p.block + p.count then .error (.blockRange p.block p.count f.blocks)
      else match f.blocksAt? d p with
        | none => .error (.file .endOfFile)
        | some raw => do
          let payload ← decodeBlocks f.blockSize p.count raw
          if payload.length = p.length then .ok payload
          else .error (.payloadLength payload.length p.length) : Except Fault Bytes).mapError
      (.corruption (shownPath f.path ++ " block " ++ toString p.block)) := by
  have hsum : ¬(decide (p.count ≠ 0) && decide (UInt64.size ≤ p.block + p.count)) = true := by
    rw [Bool.and_eq_true, decide_eq_true_eq, decide_eq_true_eq]
    exact fun h => Nat.not_le_of_lt hw.blocks h.2
  rw [read, blocksAt?]
  dsimp only
  rw [if_neg hsum]
  by_cases hout : p.count = 0 ∨ f.blocks < p.block + p.count
  · rw [if_pos hout, if_pos (by simpa using hout)]
    rfl
  · rw [if_neg hout, if_neg (by simpa using hout)]
    cases (d.bytes f.file).slice? (headerArea + p.block * f.blockSize) (p.count * f.blockSize) with
    | none => rfl
    | some raw =>
      dsimp only
      rw [if_neg (Nat.not_lt_of_le hw.length)]
      cases decodeBlocks f.blockSize p.count raw with
      | error fault => rfl
      | ok payload =>
        rw [ok_bind]
        dsimp only
        split <;> rfl

/-- **A pointer is followed** just if its blocks are in the file, each of them is sound, and they
hold as many bytes as it says. -/
theorem read_eq_ok_iff (h : f.Whole d) (hw : InWords p) {payload : Bytes} :
    f.read d p = .ok payload ↔ 0 < p.count ∧ p.block + p.count ≤ f.blocks ∧
      payload.length = p.length ∧
      ∃ raw, f.blocksAt? d p = some raw ∧ decodeBlocks f.blockSize p.count raw = .ok payload := by
  rw [read_eq hw, mapError_eq_ok]
  by_cases hout : p.count = 0 ∨ f.blocks < p.block + p.count
  · rw [if_pos hout]
    constructor
    · intro hok
      cases hok
    · rintro ⟨hpos, hin, -⟩
      omega
  · rw [if_neg hout]
    have hin : p.block + p.count ≤ f.blocks := by omega
    obtain ⟨raw, hraw, -⟩ := blocksAt?_of_le h hin
    rw [hraw]
    dsimp only
    constructor
    · intro hok
      obtain ⟨b, hb, hok⟩ := bind_eq_ok.mp hok
      split at hok
      · rename_i hlength
        obtain rfl := Except.ok.inj hok
        exact ⟨by omega, hin, hlength, raw, rfl, hb⟩
      · cases hok
    · rintro ⟨-, -, hlength, raw', hraw', hb⟩
      obtain rfl := Option.some.inj hraw'
      rw [hb, ok_bind, if_pos hlength]

/-- **Any other pointer is refused as damaged.** -/
theorem read_refused (hw : InWords p) (hr : ∀ payload, f.read d p ≠ .ok payload) :
    ∃ place fault, f.read d p = .error (.corruption place fault) := by
  rw [read_eq hw] at hr ⊢
  generalize (if p.count = 0 ∨ f.blocks < p.block + p.count then _ else _ : Except Fault Bytes) = r
    at hr ⊢
  cases r with
  | error fault => exact ⟨_, fault, rfl⟩
  | ok payload => exact absurd rfl (hr payload)

/-- A pointer whose blocks end past the last number of 64 bits is not refused as damaged. -/
theorem read_overflow (hpos : 0 < p.count) (hsum : UInt64.size ≤ p.block + p.count) :
    f.read d p = .error (.vector .outOfRange) := by
  rw [read]
  exact if_pos (by simpa using ⟨Nat.ne_of_gt hpos, hsum⟩)

end BlockFile

end ColumnStore
