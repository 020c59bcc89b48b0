/-
# CRC-32

The cyclic redundancy check with the reflected polynomial `0xEDB88320`, started from and finished
with all bits set.
-/

import ColumnStore.Bytes.Basic

namespace ColumnStore
namespace Crc32

/-- One bit of the remainder. -/
def step (r : UInt32) : UInt32 :=
  if r &&& 1 = 1 then (r >>> 1) ^^^ 0xEDB88320 else r >>> 1

/-- Eight bits of the remainder, after a byte was mixed in. -/
def update (r : UInt32) (b : UInt8) : UInt32 :=
  let r := r ^^^ b.toUInt32
  step (step (step (step (step (step (step (step r)))))))

end Crc32

/-- The CRC-32 of a byte string. -/
def crc32 (b : Bytes) : UInt32 := b.foldl Crc32.update 0xFFFFFFFF ^^^ 0xFFFFFFFF

/-- The check value of the nine digits. -/
example : crc32 [49, 50, 51, 52, 53, 54, 55, 56, 57] = 0xCBF43926 := by decide +kernel

end ColumnStore
