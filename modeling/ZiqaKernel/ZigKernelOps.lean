/-
The byte-level helpers of `src/zig/kernel_ops.zig` that the file system calls:
the CRC-32 checksum, the bitmap scan and the inode-table scan.
-/
import ZiqaKernel.ByteImage

namespace ZiqaKernel

/-- One round of the bit loop of `crc32_byte`.  The 32-bit register is kept as
a natural number; shifts to the right and exclusive ors keep it below `2^32`. -/
def crc32Bit (c : Nat) : Nat :=
  if c &&& 1 ≠ 0 then (c >>> 1) ^^^ 0xEDB88320 else c >>> 1

/-- `crc32_byte`: eight rounds. -/
def crc32Byte (c : Nat) : Nat := Nat.repeat crc32Bit 8 c

/-- The 32-bit words `f 0, ..., f (n - 1)` as one number. -/
def packWords (f : Nat → Nat) : Nat → Nat
  | 0 => 0
  | n + 1 => packWords f n ||| f n <<< (32 * n)

/-- `crc32_table`, as one number. -/
def crc32Table : Nat := packWords crc32Byte 256

/-- Entry `i` of the table. -/
def crc32Entry (i : Nat) : Nat := (crc32Table >>> (32 * i)) % 2 ^ 32

/-- `zig_crc32` with the initial value zero that the Rust wrapper passes. -/
def crc32 (data : List UInt8) : UInt32 :=
  UInt32.ofNat (0xFFFFFFFF ^^^ data.foldl
      (fun crc byte => (crc >>> 8) ^^^ crc32Entry ((crc &&& 0xFF) ^^^ byte.toNat))
      0xFFFFFFFF)

variable {n : Nat}

/-- Whether bit `i` of the bitmap is set. -/
def bitSet (bitmap : Image n) (i : Nat) : Bool :=
  bitmap.get (i / 8) &&& ((1 : UInt8) <<< UInt8.ofNat (i % 8)) ≠ 0

/-- `zig_bitmap_find_clear`: the first clear bit from `startBit` on, over the
whole byte array. -/
def bitmapFindClear (bitmap : Image n) (startBit : Nat) : Option Nat :=
  (List.range' startBit (8 * n - startBit)).find? fun i => !bitSet bitmap i

/-- `zig_inode_find_free`: the first slot from `startId` on whose first byte
is zero. -/
def inodeFindFree (buf : Image n) (count stride startId : Nat) : Option Nat :=
  (List.range' startId (count - startId)).find? fun i =>
    buf.get (i * stride) == 0

theorem maskByte_toNat {k : Nat} (hk : k < 8) : ((1 : UInt8) <<< UInt8.ofNat k).toNat = 2 ^ k := by
  interval_cases k <;> rfl

theorem notMaskByte_toNat {k : Nat} (hk : k < 8) :
    (~~~ ((1 : UInt8) <<< UInt8.ofNat k)).toNat = 2 ^ 8 - (2 ^ k + 1) := by
  interval_cases k <;> rfl

theorem bitSet_eq_testBit (bitmap : Image n) (i : Nat) :
    bitSet bitmap i = (bitmap.get (i / 8)).toNat.testBit (i % 8) := by
  have hk : i % 8 < 8 := Nat.mod_lt i (by omega)
  rw [bitSet, Bool.eq_iff_iff, decide_eq_true_iff, Ne, ← UInt8.toNat_inj,
    UInt8.toNat_and, maskByte_toNat hk, Nat.and_two_pow]
  cases (bitmap.get (i / 8)).toNat.testBit (i % 8) <;> simp

variable {bitmap : Image n}

theorem bitmapFindClear_some {start i : Nat}
    (h : bitmapFindClear bitmap start = some i) :
    start ≤ i ∧ i < 8 * n ∧ bitSet bitmap i = false := by
  have hclear := List.find?_some h
  have hmem := List.mem_of_find?_eq_some h
  simp only [List.mem_range'_1] at hmem
  refine ⟨hmem.1, by omega, ?_⟩
  simpa using hclear

theorem bitmapFindClear_none {start i : Nat}
    (h : bitmapFindClear bitmap start = none) (hstart : start ≤ i)
    (hi : i < 8 * n) : bitSet bitmap i = true := by
  have hall := List.find?_eq_none.mp h i (by simp only [List.mem_range'_1]; omega)
  simpa using hall

theorem bitmapFindClear_le {start i j : Nat}
    (h : bitmapFindClear bitmap start = some j) (hstart : start ≤ i)
    (hclear : bitSet bitmap i = false) : j ≤ i := by
  obtain ⟨-, -, hbefore⟩ := List.find?_range'_eq_some.mp h
  by_contra hlt
  have hset := hbefore i hstart (Nat.not_le.mp hlt)
  simp [hclear] at hset

theorem inodeFindFree_some {buf : Image n} {count stride start i : Nat}
    (h : inodeFindFree buf count stride start = some i) :
    start ≤ i ∧ i < count ∧ buf.get (i * stride) = 0 := by
  have hfree := List.find?_some h
  have hmem := List.mem_of_find?_eq_some h
  simp only [List.mem_range'_1] at hmem
  refine ⟨hmem.1, by omega, ?_⟩
  simpa using hfree

end ZiqaKernel
