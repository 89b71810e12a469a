/-
Block I/O and bitmap allocation of ZiqaFS (`fs/ziqafs/types.rs`,
`fs/ziqafs/block.rs`) over a faithful sector device: a read returns the bytes
last written, and an access past the last sector is refused.
-/
import ZiqaKernel.FallibleState
import ZiqaKernel.ZigKernelOps

namespace ZiqaKernel

open Fallible Image

/-- `AbiError`, the error type shared by the drivers and the file systems. -/
inductive AbiError where
  | unknownFormat
  | parseError
  | outOfMemory
  | unsupportedSyscall (number : Nat)
  | permissionDenied
  | outOfBounds
  | other (message : String)
deriving DecidableEq, Repr

/-- How a file-system call can end without a value: with an error handed to
the caller, or with a panic or an access outside a stack buffer, after which
the kernel gives no result at all. -/
inductive Failure where
  | error (e : AbiError)
  | fault
deriving DecidableEq, Repr

/-- One block.  `BLOCK_SIZE` is 4096 and `SECTOR_SIZE` is 512, so a block is
eight sectors; both constants are written as numerals below. -/
abbrev Block : Type := Image 4096

def superblockBlock : UInt32 := 1
def bitmapBlock : UInt32 := 2
def inodeTableBlock : UInt32 := 3
def journalBlock : UInt32 := 4
def firstDataBlock : UInt32 := 5

/-- A faithful block device: its capacity and the contents of its sectors. -/
structure Disk where
  totalSectors : Nat
  data : Nat → Image 512

namespace Disk

/-- `BlockDevice::read_sectors`. -/
def readSectors (d : Disk) (sector count : Nat) : Except AbiError (Nat → Image 512) :=
  if sector + count ≤ d.totalSectors then .ok fun i => d.data (sector + i)
  else .error .outOfBounds

/-- `BlockDevice::write_sectors`. -/
def writeSectors (d : Disk) (sector count : Nat) (buf : Nat → Image 512) : Except AbiError Disk :=
  if sector + count ≤ d.totalSectors then
    .ok { d with
      data := fun p =>
        if sector ≤ p ∧ p < sector + count then buf (p - sector) else d.data p }
  else .error .outOfBounds

/-- The contents of block `b`. -/
def block (d : Disk) (b : UInt32) : Block :=
  join (fun i => d.data (b.toNat * 8 + i)) 8

/-- The device with the contents of block `b` replaced. -/
def setBlock (d : Disk) (b : UInt32) (contents : Block) : Disk :=
  { d with
    data := fun p =>
      if b.toNat * 8 ≤ p ∧ p < b.toNat * 8 + 8 then
        contents.part 512 (p - b.toNat * 8)
      else d.data p }

/-- Whether every sector of block `b` exists on the device. -/
def InRange (d : Disk) (b : UInt32) : Prop :=
  8 * b.toNat + 8 ≤ d.totalSectors

instance (d : Disk) (b : UInt32) : Decidable (d.InRange b) :=
  inferInstanceAs (Decidable (_ ≤ _))

@[simp]
theorem block_setBlock_self (d : Disk) (b : UInt32) (contents : Block) :
    (d.setBlock b contents).block b = contents := by
  have hsize : 4096 = 512 * 8 := rfl
  refine join_part (by decide) hsize contents fun i hi => ?_
  simp only [setBlock]
  rw [if_pos (by omega), Nat.add_sub_cancel_left]

theorem block_setBlock_ne (d : Disk) {a b : UInt32} (contents : Block)
    (hne : a ≠ b) : (d.setBlock b contents).block a = d.block a := by
  have hnat : a.toNat ≠ b.toNat := fun h => hne (UInt32.toNat_inj.mp h)
  refine join_congr fun i hi => ?_
  simp only [setBlock]
  rw [if_neg (by omega)]

end Disk

structure Superblock where
  magic : UInt32
  totalBlocks : UInt32
  inodeCount : UInt32
  firstDataBlock : UInt32
  blockSize : UInt32
  flags : UInt32
  freeBlocks : UInt32
  freeInodes : UInt32
  reserved : Image 20

/-- Byte `i` of the `repr(C)` superblock. -/
def Superblock.toBytes (sb : Superblock) (i : Nat) : UInt8 :=
  if i < 4 then le32 sb.magic i
  else if i < 8 then le32 sb.totalBlocks (i - 4)
  else if i < 12 then le32 sb.inodeCount (i - 8)
  else if i < 16 then le32 sb.firstDataBlock (i - 12)
  else if i < 20 then le32 sb.blockSize (i - 16)
  else if i < 24 then le32 sb.flags (i - 20)
  else if i < 28 then le32 sb.freeBlocks (i - 24)
  else if i < 32 then le32 sb.freeInodes (i - 28)
  else sb.reserved.get (i - 32)

/-- `size_of::<Superblock>()`. -/
def superblockSize : Nat := 52

structure ZiqaFs where
  device : Disk
  sb : Superblock

/-- File-system operations: they change the volume, also when they fail. -/
abbrev FsM (α : Type) : Type := Fallible ZiqaFs Failure α

/-- Fail with an `AbiError`. -/
def err {α : Type} (e : AbiError) : FsM α := fail (.error e)

def faulted {α : Type} : FsM α := fail .fault

/-- `Result::ok`: an error becomes `none`, a panic stays one. -/
def okOrNone {α : Type} (x : FsM α) : FsM (Option α) where
  run fs :=
    match x.run fs with
    | (.ok a, fs') => (.ok (some a), fs')
    | (.error (.error _), fs') => (.ok none, fs')
    | (.error .fault, fs') => (.error .fault, fs')

/-- `read_block`, that is `read_blocks` with count one and a block-sized
buffer. -/
def readBlock (b : UInt32) : FsM Block where
  run fs :=
    match fs.device.readSectors (b.toNat * 8) 8 with
    | .ok sectors => (.ok (join sectors 8), fs)
    | .error e => (.error (.error e), fs)

/-- `write_block`. -/
def writeBlock (b : UInt32) (contents : Block) : FsM Unit where
  run fs :=
    match fs.device.writeSectors (b.toNat * 8) 8 (contents.part 512) with
    | .ok device => (.ok (), { fs with device })
    | .error e => (.error (.error e), fs)

theorem run_readBlock (b : UInt32) (fs : ZiqaFs) : (readBlock b).run fs =
      if fs.device.InRange b then (.ok (fs.device.block b), fs)
      else (.error (.error .outOfBounds), fs) := by
  by_cases h : fs.device.InRange b
  · have hs : b.toNat * 8 + 8 ≤ fs.device.totalSectors := by
      simpa [Disk.InRange, Nat.mul_comm] using h
    simp [readBlock, Disk.readSectors, hs, h, Disk.block]
  · have hs : ¬ b.toNat * 8 + 8 ≤ fs.device.totalSectors := by
      simpa [Disk.InRange, Nat.mul_comm] using h
    simp [readBlock, Disk.readSectors, hs, h]

theorem run_writeBlock (b : UInt32) (contents : Block) (fs : ZiqaFs) :
    (writeBlock b contents).run fs =
      if fs.device.InRange b then
        (.ok (), { fs with device := fs.device.setBlock b contents })
      else (.error (.error .outOfBounds), fs) := by
  by_cases h : fs.device.InRange b
  · have hs : b.toNat * 8 + 8 ≤ fs.device.totalSectors := by
      simpa [Disk.InRange, Nat.mul_comm] using h
    simp [writeBlock, Disk.writeSectors, hs, h, Disk.setBlock]
  · have hs : ¬ b.toNat * 8 + 8 ≤ fs.device.totalSectors := by
      simpa [Disk.InRange, Nat.mul_comm] using h
    simp [writeBlock, Disk.writeSectors, hs, h]

theorem readBlock_eq_ok_iff {b : UInt32} {fs fs' : ZiqaFs} {contents : Block} :
    (readBlock b).run fs = (.ok contents, fs') ↔
      fs.device.InRange b ∧ contents = fs.device.block b ∧ fs' = fs := by
  rw [run_readBlock]
  by_cases h : fs.device.InRange b
  · simp only [h, ↓reduceIte, Prod.mk.injEq, Except.ok.injEq, true_and]
    exact and_congr eq_comm eq_comm
  · simp [h]

theorem writeBlock_eq_ok_iff {b : UInt32} {contents : Block} {fs fs' : ZiqaFs} {u : Unit} :
    (writeBlock b contents).run fs = (.ok u, fs') ↔ fs.device.InRange b ∧
        fs' = { fs with device := fs.device.setBlock b contents } := by
  rw [run_writeBlock]
  by_cases h : fs.device.InRange b
  · simp only [h, ↓reduceIte, Prod.mk.injEq, true_and]
    exact eq_comm
  · simp [h]

/-- `set_bitmap_bit`. -/
def setBitmapBit (bitmap : Block) (i : Nat) : Block :=
  bitmap.splice (i / 8) 1 fun _ =>
    bitmap.get (i / 8) ||| ((1 : UInt8) <<< UInt8.ofNat (i % 8))

/-- `clear_bitmap_bit`. -/
def clearBitmapBit (bitmap : Block) (i : Nat) : Block :=
  bitmap.splice (i / 8) 1 fun _ =>
    bitmap.get (i / 8) &&& ~~~ ((1 : UInt8) <<< UInt8.ofNat (i % 8))

theorem bitSet_setBitmapBit (bitmap : Block) {i : Nat} (hi : i < 32768) (j : Nat) :
    bitSet (setBitmapBit bitmap i) j = (bitSet bitmap j || decide (j = i)) := by
  rw [bitSet_eq_testBit, bitSet_eq_testBit, setBitmapBit, get_splice]
  have hm := Nat.mod_lt i (show 8 > 0 by omega)
  by_cases hbyte : j / 8 = i / 8
  · rw [if_pos (by omega), hbyte, UInt8.toNat_or, maskByte_toNat hm,
      Nat.testBit_or, Nat.testBit_two_pow]
    congr 1
    simp only [decide_eq_decide]
    omega
  · rw [if_neg (by omega)]
    have hne : j ≠ i := fun h => hbyte (by rw [h])
    simp [hne]

theorem bitSet_clearBitmapBit (bitmap : Block) {i : Nat} (hi : i < 32768) (j : Nat) :
    bitSet (clearBitmapBit bitmap i) j = (bitSet bitmap j && decide (j ≠ i)) := by
  rw [bitSet_eq_testBit, bitSet_eq_testBit, clearBitmapBit, get_splice]
  have hm := Nat.mod_lt i (show 8 > 0 by omega)
  have hj := Nat.mod_lt j (show 8 > 0 by omega)
  by_cases hbyte : j / 8 = i / 8
  · have hpow : 2 ^ (i % 8) < 2 ^ 8 := Nat.pow_lt_pow_right (by omega) hm
    have hiff : (i % 8 = j % 8) ↔ j = i := by omega
    rw [if_pos (by omega), hbyte, UInt8.toNat_and, notMaskByte_toNat hm,
      Nat.testBit_and, Nat.testBit_two_pow_sub_succ hpow, Nat.testBit_two_pow]
    simp [hj, hiff]
  · rw [if_neg (by omega)]
    have hne : j ≠ i := fun h => hbyte (by rw [h])
    simp [hne]

/-- `u32::saturating_sub(1)`. -/
def pred32 (v : UInt32) : UInt32 := if v = 0 then 0 else v - 1

/-- `u32::saturating_add(1)`. -/
def succ32 (v : UInt32) : UInt32 := if v = 0xFFFFFFFF then v else v + 1

/-- `alloc_data_block`: take the first clear bit, mark it, zero the block. -/
def allocDataBlock : FsM UInt32 := do
  let bitmap ← readBlock bitmapBlock
  let sb ← gets ZiqaFs.sb
  match bitmapFindClear bitmap sb.firstDataBlock.toNat with
  | none => err (.other "No free blocks")
  | some i =>
    if i < sb.totalBlocks.toNat then do
      writeBlock bitmapBlock (setBitmapBit bitmap i)
      writeBlock (UInt32.ofNat i) zero
      modify fun fs =>
        { fs with sb := { fs.sb with freeBlocks := pred32 fs.sb.freeBlocks } }
      pure (UInt32.ofNat i)
    else err (.other "No free blocks")

/-- `free_data_block`.  A block number that lies inside the volume but past the
bitmap's last bit indexes the bitmap buffer out of bounds. -/
def freeDataBlock (b : UInt32) : FsM Unit := do
  let sb ← gets ZiqaFs.sb
  if b < sb.firstDataBlock ∨ b ≥ sb.totalBlocks then err .outOfBounds
  else
    let bitmap ← readBlock bitmapBlock
    if b.toNat / 8 < 4096 then
      writeBlock bitmapBlock (clearBitmapBit bitmap b.toNat)
      modify fun fs =>
        { fs with sb := { fs.sb with freeBlocks := succ32 fs.sb.freeBlocks } }
    else faulted

/-- `flush_superblock`: store the in-memory superblock at the head of a zeroed
block. -/
def flushSuperblock : FsM Unit := do
  let sb ← gets ZiqaFs.sb
  writeBlock superblockBlock (zero.splice 0 superblockSize sb.toBytes)

end ZiqaKernel
