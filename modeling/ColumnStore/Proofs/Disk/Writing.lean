/-
# Payloads written one after the other

Payloads that are written to a new block file lie in consecutive blocks (`BlockFile.Consecutive`).
Each is read back from then on, whatever is written behind it, through the file that was made and
through any that is opened under its path (`BlockFile.payloads_read_back`).
-/

import ColumnStore.Proofs.Disk.Blocks
import ColumnStore.Proofs.Disk.Paths
import ColumnStore.Proofs.Disk.Payloads
import Mathlib.Algebra.Ring.Nat

namespace ColumnStore
namespace BlockFile

/-! ## One payload after the other -/

/-- Writes payloads to fresh blocks, up to the first that is refused, and gives where they lie. -/
def writeAll (f : BlockFile) (d : Disk) :
    List Bytes → Except StorageError (List BlockPointer × BlockFile × Disk)
  | [] => .ok ([], f, d)
  | payload :: rest => do
    let (p, f, d) ← f.write d payload
    let (pointers, f, d) ← writeAll f d rest
    pure (p :: pointers, f, d)

/-- Pointers to blocks that follow each other without gaps, at least one for each pointer. -/
def Consecutive (start : Nat) : List BlockPointer → (stop : Nat) → Prop
  | [], stop => start = stop
  | p :: rest, stop => p.block = start ∧ 0 < p.count ∧ Consecutive (start + p.count) rest stop

theorem Consecutive.stop_eq {start stop : Nat} {pointers : List BlockPointer}
    (h : Consecutive start pointers stop) : stop = start + (pointers.map (·.count)).sum := by
  induction pointers generalizing start with
  | nil => exact (show start = stop from h).symm
  | cons p rest ih =>
    rw [ih h.2.2, List.map_cons, List.sum_cons, Nat.add_assoc]

/-- **Payloads have no block in common.** -/
theorem Consecutive.pairwise {start stop : Nat} {pointers : List BlockPointer}
    (h : Consecutive start pointers stop) :
    (∀ p ∈ pointers, start ≤ p.block) ∧
      pointers.Pairwise fun p q => p.block + p.count ≤ q.block := by
  induction pointers generalizing start with
  | nil => exact ⟨fun _ hp => absurd hp List.not_mem_nil, .nil⟩
  | cons p rest ih =>
    obtain ⟨hp, -, hrest⟩ := h
    obtain ⟨hlater, hpairs⟩ := ih hrest
    refine ⟨fun q hq => ?_, .cons (fun q hq => hp ▸ hlater q hq) hpairs⟩
    rcases List.mem_cons.mp hq with rfl | hq
    · exact Nat.le_of_eq hp.symm
    · exact Nat.le_trans (Nat.le_add_right _ _) (hlater q hq)

variable {f f' : BlockFile} {d d' : Disk} {path : String}

/-- **A payload is written** if its blocks can be counted in 32 bits. -/
theorem write_eq (d : Disk) (hw : f.writable = true) {payload : Bytes}
    (hcount : blocksFor f.capacity payload.length < UInt32.size) :
    ∃ d', f.write d payload = .ok (⟨f.blocks, blocksFor f.capacity payload.length, payload.length⟩,
      { f with blocks := f.blocks + blocksFor f.capacity payload.length }, d') := by
  simp only [write, if_neg (Nat.not_le_of_lt hcount), hw, Bool.not_true, Bool.false_eq_true, if_false]
  exact ⟨_, rfl⟩

/-- One payload is written, and then the others. -/
theorem writeAll_cons {payload : Bytes} {rest : List Bytes} {p : BlockPointer}
    {pointers : List BlockPointer} {f₁ : BlockFile} {d₁ : Disk}
    (hwrite : f.write d payload = .ok (p, f₁, d₁))
    (hrest : f₁.writeAll d₁ rest = .ok (pointers, f', d')) :
    f.writeAll d (payload :: rest) = .ok (p :: pointers, f', d') := by
  simp only [writeAll, hwrite, ok_bind, hrest]
  rfl

/-- **Payloads are written** to consecutive blocks, and are there when the last one is written. -/
theorem writeAll_ok (h : f.Whole d) (hw : f.writable = true) {payloads : List Bytes}
    (hcount : ∀ b ∈ payloads, blocksFor f.capacity b.length < UInt32.size) :
    ∃ pointers f' d', f.writeAll d payloads = .ok (pointers, f', d') ∧ f'.Whole d' ∧
      Continues f d f' d' ∧ Consecutive f.blocks pointers f'.blocks ∧
      pointers.map (·.count) = payloads.map (fun b => blocksFor f.capacity b.length) ∧
      List.Forall₂ (f'.Holds d') pointers payloads := by
  induction payloads generalizing f d with
  | nil => exact ⟨[], f, d, rfl, h, .refl f d, rfl, rfl, .nil⟩
  | cons payload rest ih =>
    obtain ⟨d₁, hwrite⟩ := write_eq d hw (hcount payload List.mem_cons_self)
    obtain ⟨hwhole, hcontinues, hholds⟩ := write_ok h hwrite
    obtain ⟨pointers, f', d', hrest, hwhole', hcontinues', hconsecutive, hcounts, hall⟩ :=
      ih hwhole hw fun b hb => hcount b (List.mem_cons_of_mem _ hb)
    have hpositive : 0 < blocksFor f.capacity payload.length := Nat.le_max_left 1 _
    refine ⟨_, f', d', writeAll_cons hwrite hrest, hwhole', hcontinues.trans hcontinues',
      And.intro rfl ⟨hpositive, hconsecutive⟩, ?_, .cons (hholds.continues hcontinues') hall⟩
    rw [List.map_cons, List.map_cons, hcounts]
    rfl

/-- Payloads are written in front of others as without them. -/
theorem writeAll_append {front back : List Bytes} {pointers : List BlockPointer}
    (hok : f.writeAll d (front ++ back) = .ok (pointers, f', d')) :
    ∃ f₁ d₁, f.writeAll d front = .ok (pointers.take front.length, f₁, d₁) ∧
      f₁.writeAll d₁ back = .ok (pointers.drop front.length, f', d') := by
  induction front generalizing f d pointers with
  | nil => exact ⟨f, d, rfl, hok⟩
  | cons payload rest ih =>
    rw [List.cons_append, writeAll] at hok
    obtain ⟨⟨p, f₁, d₁⟩, hwrite, hok⟩ := bind_eq_ok.mp hok
    obtain ⟨⟨more, f₂, d₂⟩, hmore, hok⟩ := bind_eq_ok.mp hok
    obtain ⟨rfl, rfl, rfl⟩ : p :: more = pointers ∧ f₂ = f' ∧ d₂ = d' := by simpa using hok
    obtain ⟨f₃, d₃, hrest, hback⟩ := ih hmore
    exact ⟨f₃, d₃, writeAll_cons hwrite hrest, hback⟩

/-! ## From the first block on -/

/-- A block file under its path, with its header in front. -/
structure Under (f : BlockFile) (d : Disk) (path : String) : Prop where
  whole : f.Whole d
  path_eq : f.path = path
  find : d.find path = .ok f.file
  header : ∃ rest, d.bytes f.file = (FileHeader.ofKind .blockFile f.blockSize).encode ++ rest

theorem Under.continues (h : f.Under d path) (hw : f'.Whole d') (hc : Continues f d f' d') :
    f'.Under d' path where
  whole := hw
  path_eq := hc.path_eq.trans h.path_eq
  find := by rw [hc.sameBut.find_eq, hc.file_eq, h.find]
  header := by
    obtain ⟨rest, hrest⟩ := h.header
    obtain ⟨more, hmore⟩ := hc.bytes_prefix
    exact ⟨rest ++ more, by rw [hc.file_eq, hc.blockSize_eq, ← hmore, hrest, List.append_assoc]⟩

/-- **A block file can be opened under its path** for reading. -/
theorem Under.openFile_eq (h : f.Under d path) :
    openFile d path = .ok { f with writable := false } := by
  obtain ⟨rest, hrest⟩ := h.header
  exact openFile_ok.mpr ⟨h.find,
    ⟨_, by rw [hrest]; exact FileHeader.readKind_ofKind .blockFile h.whole.small rest, rfl⟩,
    h.path_eq, h.whole.least, h.whole.length_eq, rfl⟩

/-- **A block file is made** with blocks of any size that is allowed. -/
theorem create_under {d₀ : Disk} (hd : d.Whole) {file : FileId}
    (hmade : d.create path = .ok (file, d₀)) {blockSize : Nat} (hleast : leastBlockSize ≤ blockSize)
    (hsmall : blockSize < UInt32.size) :
    ∃ f d', create d path blockSize = .ok (f, d') ∧ f.Under d' path ∧ f.blockSize = blockSize ∧
      f.blocks = 0 ∧ f.writable = true := by
  obtain ⟨hin, -, hfind⟩ := Disk.find_create hd hmade
  generalize hheader : (FileHeader.ofKind .blockFile blockSize).encode = header
  have hlength : header.length = FileHeader.length := by
    have hmagic : (FileHeader.ofKind .blockFile blockSize).magic.length = 8 :=
      FileKind.length_magic .blockFile
    rw [← hheader, FileHeader.encode, FileHeader.body]
    simp only [List.length_append, Bytes.length_ofNat, hmagic]
    rfl
  have hsame := Disk.SameBut.write file d₀ (Bytes.padTo headerArea header)
  have hbytes : (d₀.write file (Bytes.padTo headerArea header)).bytes file =
      Bytes.padTo headerArea header := Disk.bytes_write hin _
  refine ⟨{ path, blockSize, file, blocks := 0, writable := true }, _, ?_,
    ⟨⟨hsame.size_eq ▸ hin, ?_, hleast, hsmall⟩, rfl, (hsame.find_eq path).trans hfind,
      ⟨_, hbytes.trans (by rw [hheader]; rfl)⟩⟩, rfl, rfl, rfl⟩
  · have hsize : ¬(decide (blockSize < leastBlockSize) || decide (UInt32.size ≤ blockSize)) = true := by
      simp only [Bool.or_eq_true, decide_eq_true_eq, not_or, Nat.not_lt, Nat.not_le]
      exact ⟨hleast, hsmall⟩
    rw [create, if_neg hsize, hmade]
    dsimp only
    rw [hheader]
  · have harea : FileHeader.length ≤ headerArea := by decide
    dsimp only
    rw [hbytes, Bytes.padTo, List.length_append, List.length_replicate, hlength]
    omega

/-- The first payloads take no more blocks than all of them. -/
theorem sum_take_le {capacity : Nat} (k : Nat) (payloads : List Bytes) :
    ((payloads.take k).map fun b => blocksFor capacity b.length).sum ≤
      (payloads.map fun b => blocksFor capacity b.length).sum := by
  conv_rhs => rw [← List.take_append_drop k payloads, List.map_append, List.sum_append]
  exact Nat.le_add_right _ _

/-- **Whatever is written to a block file is read back.**  Payloads of any lengths, that of no bytes
and that of full blocks included, are written to a new file with blocks of any size that is allowed.
They lie in consecutive blocks, none in a block of another one, and the file counts just these
blocks.  After each number `k` of them, each of the first `k` is read back at the place that its
pointer gives, by the one who wrote it and by one who opens the file then.

No I/O error occurs: the file can be made, and no position in it is past the last one that a file
can have. -/
theorem payloads_read_back {d₀ : Disk} (hd : d.Whole) {file : FileId}
    (hmade : d.create path = .ok (file, d₀)) {blockSize : Nat} (hleast : leastBlockSize ≤ blockSize)
    (hsmall : blockSize < UInt32.size) (payloads : List Bytes)
    (hcount : ∀ b ∈ payloads, blocksFor (blockSize - blockHeader) b.length < UInt32.size)
    (hlong : headerArea + (payloads.map fun b => blocksFor (blockSize - blockHeader) b.length).sum *
      blockSize ≤ Bytes.longest) :
    ∃ f d₁ pointers f' d', create d path blockSize = .ok (f, d₁) ∧
      f.writeAll d₁ payloads = .ok (pointers, f', d') ∧ Consecutive 0 pointers f'.blocks ∧
      (pointers.Pairwise fun p q => p.block + p.count ≤ q.block) ∧
      f'.blocks = (pointers.map (·.count)).sum ∧
      ∀ k ≤ payloads.length, ∃ fₖ dₖ g,
        f.writeAll d₁ (payloads.take k) = .ok (pointers.take k, fₖ, dₖ) ∧
        openFile dₖ path = .ok g ∧ g.blocks = fₖ.blocks ∧
        fₖ.blocks = ((pointers.take k).map (·.count)).sum ∧
        List.Forall₂ (fun p b => fₖ.read dₖ p = .ok b ∧ g.read dₖ p = .ok b)
          (pointers.take k) (payloads.take k) := by
  obtain ⟨f, d₁, hcreate, hunder, hsize, hblocks, hw⟩ := create_under hd hmade hleast hsmall
  have hcapacity : f.capacity = blockSize - blockHeader := by rw [capacity, hsize]
  have hcount' : ∀ b ∈ payloads, blocksFor f.capacity b.length < UInt32.size := hcapacity ▸ hcount
  obtain ⟨pointers, f', d', hwrite, -, -, hconsecutive, hcounts, -⟩ :=
    writeAll_ok hunder.whole hw hcount'
  rw [hblocks] at hconsecutive
  refine ⟨f, d₁, pointers, f', d', hcreate, hwrite, hconsecutive, hconsecutive.pairwise.2,
    hconsecutive.stop_eq.trans (Nat.zero_add _), fun k hk => ?_⟩
  -- The first payloads were written as if there were no others.
  obtain ⟨pointersₖ, fₖ, dₖ, hwriteₖ, hwholeₖ, hcontinues, hconsecutiveₖ, hcountsₖ, hheld⟩ :=
    writeAll_ok hunder.whole hw fun b (hb : b ∈ payloads.take k) =>
      hcount' b (List.mem_of_mem_take hb)
  obtain ⟨f₁, d₂, hfront, -⟩ := writeAll_append
    (show f.writeAll d₁ (payloads.take k ++ payloads.drop k) = _ by
      rw [List.take_append_drop, hwrite])
  obtain ⟨rfl, rfl, rfl⟩ : pointersₖ = pointers.take k ∧ fₖ = f₁ ∧ dₖ = d₂ := by
    rw [List.length_take, Nat.min_eq_left hk, hwriteₖ] at hfront
    simpa using hfront
  have hsum : fₖ.blocks = ((pointers.take k).map (·.count)).sum := by
    rw [hconsecutiveₖ.stop_eq, hblocks, Nat.zero_add]
  have hshort : (dₖ.bytes fₖ.file).length ≤ Bytes.longest := by
    refine Nat.le_trans (Nat.le_of_eq ?_) (Nat.le_trans (Nat.add_le_add_left
      (Nat.mul_le_mul_right blockSize (?_ : fₖ.blocks ≤ _)) headerArea) hlong)
    · rw [hwholeₖ.length_eq, hcontinues.blockSize_eq, hsize]
    · rw [hsum, hcountsₖ, hcapacity]
      exact sum_take_le k payloads
  refine ⟨fₖ, dₖ, _, hwriteₖ, (hunder.continues hwholeₖ hcontinues).openFile_eq, rfl, hsum,
    hheld.imp fun p b hb => ?_⟩
  obtain ⟨hread, -⟩ := hb.read_ok hwholeₖ hshort
  exact ⟨hread, hread⟩

/-- No bytes, the bytes of one block, and one byte more. -/
def threePayloads : List Bytes := [[], List.replicate 56 7, List.replicate 57 9]

/-- A file with the smallest blocks, one of them empty, two full and one with a single byte. -/
theorem payloads_read_back_full :
    ∃ f d₁ pointers f' d', create {} "blocks.db" 64 = .ok (f, d₁) ∧
      f.writeAll d₁ threePayloads = .ok (pointers, f', d') ∧ Consecutive 0 pointers f'.blocks ∧
      (pointers.Pairwise fun p q => p.block + p.count ≤ q.block) ∧
      f'.blocks = (pointers.map (·.count)).sum ∧
      ∀ k ≤ threePayloads.length, ∃ fₖ dₖ g,
        f.writeAll d₁ (threePayloads.take k) = .ok (pointers.take k, fₖ, dₖ) ∧
        openFile dₖ "blocks.db" = .ok g ∧ g.blocks = fₖ.blocks ∧
        fₖ.blocks = ((pointers.take k).map (·.count)).sum ∧
        List.Forall₂ (fun p b => fₖ.read dₖ p = .ok b ∧ g.read dₖ p = .ok b)
          (pointers.take k) (threePayloads.take k) := by
  have hplain : Disk.Plain "blocks.db" := by decide +kernel
  have hwhole : Disk.Whole {} := by
    intro p file hentry
    rw [Disk.entry?] at hentry
    split at hentry <;> cases hentry
  exact payloads_read_back hwhole (hplain.create_new (by decide)) (by decide) (by decide)
    threePayloads (by decide) (by decide)

end BlockFile
end ColumnStore
