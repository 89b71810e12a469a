/-
The allocation table of the FAT32 driver (`fs/fat32.rs`) on volumes whose
sectors are the device's, 512 bytes each.  Cluster and sector numbers are
natural numbers; the casts to `u32` are written out where a value can exceed
32 bits.
-/
import ZiqaKernel.LinkedChains
import ZiqaKernel.ZiqaFsBlock

namespace ZiqaKernel

namespace Disk

def byte (d : Disk) (a : Nat) : UInt8 := (d.data (a / 512)).get (a % 512)

/-- `read_sectors` into a byte buffer. -/
def readBytes (d : Disk) (sector count : Nat) : Except AbiError (Nat → UInt8) :=
  match d.readSectors sector count with
  | .ok buf => .ok fun k => (buf (k / 512)).get (k % 512)
  | .error e => .error e

/-- `write_sectors` from a byte buffer. -/
def writeBytes (d : Disk) (sector count : Nat) (buf : Nat → UInt8) : Except AbiError Disk :=
  d.writeSectors sector count fun i => Image.ofFn fun k => buf (512 * i + k)

end Disk

/-- `Fat32Error`. -/
inductive Fat32Error where
  | badSignature
  | invalidBpb (message : String)
  | ioError
  | notFat32
deriving DecidableEq, Repr

/-- `Fat32Bpb` of a volume with 512-byte sectors; `parse` rejects a volume
without sectors per cluster or without a table. -/
structure Fat32Bpb where
  sectorsPerCluster : Nat
  reservedSectors : Nat
  numFats : Nat
  sectorsPerFat32 : Nat
  rootCluster : Nat
  partitionStart : Nat
  sectorsPerCluster_pos : 0 < sectorsPerCluster
  numFats_pos : 0 < numFats

namespace Fat32Bpb

/-- `fat_start_sector`. -/
def fatStartSector (bpb : Fat32Bpb) : Nat :=
  bpb.partitionStart + bpb.reservedSectors

/-- `data_start_sector`. -/
def dataStartSector (bpb : Fat32Bpb) : Nat :=
  bpb.fatStartSector + bpb.numFats * bpb.sectorsPerFat32

/-- `cluster_to_sector`; the subtraction is one of 32 bits. -/
def clusterToSector (bpb : Fat32Bpb) (cluster : Nat) : Nat :=
  bpb.dataStartSector + (if 2 ≤ cluster then cluster - 2 else cluster + UInt32.size - 2) *
      bpb.sectorsPerCluster

/-- `bytes_per_cluster`. -/
def bytesPerCluster (bpb : Fat32Bpb) : Nat := bpb.sectorsPerCluster * 512

/-- `max_clusters`, the number of entries of the table. -/
def maxClusters (bpb : Fat32Bpb) : Nat := bpb.sectorsPerFat32 * 512 / 4

def chainLimit (bpb : Fat32Bpb) : Nat :=
  if bpb.maxClusters > 0 then bpb.maxClusters else 1048576

end Fat32Bpb

def entryValue (word : UInt32) : Nat := word.toNat % 0x10000000

/-- The smallest value that marks the end of a chain, and the one the driver
writes. -/
def endMark : Nat := 0x0FFFFFF8
def endOfChain : Nat := 0x0FFFFFFF

def nextOf (entry : Nat) : Option Nat :=
  if endMark ≤ entry then none
  else if entry < 2 then none
  else some entry

/-- `follow_cluster_chain`. -/
def followClusterChain (bpb : Fat32Bpb) (d : Disk) (cluster : Nat) : Option Nat :=
  match d.readBytes (bpb.fatStartSector + cluster * 4 / 512) 1 with
  | .error _ => none
  | .ok buf => nextOf (entryValue (u32At buf (cluster * 4 % 512)))

/-- `collect_cluster_chain_limited`. -/
def collectClusterChainLimited (bpb : Fat32Bpb) (d : Disk) (start max : Nat) : List Nat :=
  collectChain (followClusterChain bpb d) max start

/-- `collect_cluster_chain`. -/
def collectClusterChain (bpb : Fat32Bpb) (d : Disk) (start : Nat) : List Nat :=
  collectChain (followClusterChain bpb d) bpb.chainLimit start

/-- Driver operations: they change the device, also when they fail. -/
abbrev FatM (α : Type) : Type := Fallible Disk Fat32Error α

/-- Read into a byte buffer, or fail with `IoError`. -/
def readSectorsFat (sector count : Nat) : FatM (Nat → UInt8) where
  run d :=
    match d.readBytes sector count with
    | .ok buf => (.ok buf, d)
    | .error _ => (.error .ioError, d)

/-- Write from a byte buffer, or fail with `IoError`. -/
def writeSectorsFat (sector count : Nat) (buf : Nat → UInt8) : FatM Unit where
  run d :=
    match d.writeBytes sector count buf with
    | .ok d' => (.ok (), d')
    | .error _ => (.error .ioError, d)

/-- `buf[off..off + len].copy_from_slice(..)`. -/
def patch (buf : Nat → UInt8) (off len : Nat) (src : Nat → UInt8) : Nat → UInt8 :=
  fun k => if off ≤ k ∧ k < off + len then src (k - off) else buf k

/-- The entry that `write_fat_entry` stores over an old one. -/
def newEntry (old : UInt32) (next : Nat) : UInt32 :=
  UInt32.ofNat (old.toNat / 0x10000000 * 0x10000000 + next % 0x10000000)

/-- The loop of `write_fat_entry` over the copies of the table. -/
def writeCopies (bpb : Fat32Bpb) (fatSector : Nat) (buf : Nat → UInt8) : List Nat → FatM Unit
  | [] => pure ()
  | i :: rest => do
      writeSectorsFat (fatSector + i * bpb.sectorsPerFat32) 1 buf
      writeCopies bpb fatSector buf rest

/-- `write_fat_entry`. -/
def writeFatEntry (bpb : Fat32Bpb) (cluster next : Nat) : FatM Unit := do
  let fatSector := bpb.fatStartSector + cluster * 4 / 512
  let off := cluster * 4 % 512
  let buf ← readSectorsFat fatSector 1
  writeCopies bpb fatSector (patch buf off 4 (le32 (newEntry (u32At buf off) next)))
    (List.range bpb.numFats)

/-- The inner loop of `find_free_cluster`, over the entries of sector `sec` of
the table; entry `j` stands at offset `4 * j`. -/
def freeInSector (bpb : Fat32Bpb) (sec : Nat) (buf : Nat → UInt8) : Option Nat :=
  (List.range 128).findSome? fun j =>
    let cluster := (sec * 512 + 4 * j) / 4
    if cluster < 2 ∨ bpb.maxClusters ≤ cluster then none
    else if entryValue (u32At buf (4 * j)) = 0 then some (cluster % UInt32.size)
    else none

/-- `find_free_cluster`. -/
def findFreeCluster (bpb : Fat32Bpb) (d : Disk) : Option Nat :=
  (List.range bpb.sectorsPerFat32).findSome? fun sec =>
    match d.readBytes (bpb.fatStartSector + sec) 1 with
    | .error _ => none
    | .ok buf => freeInSector bpb sec buf

def writePrev (bpb : Fat32Bpb) (prev : Option Nat) (next : Nat) : FatM Unit :=
  match prev with
  | some p => writeFatEntry bpb p next
  | none => pure ()

/-- The last part of `allocate_cluster`, which clears the data of the new
cluster, or takes the links back. -/
def clearCluster (bpb : Fat32Bpb) (prev : Option Nat) (new : Nat) (d : Disk) : Option Nat × Disk :=
  match d.writeBytes (bpb.clusterToSector new) bpb.sectorsPerCluster fun _ => 0 with
  | .ok d' => (some new, d')
  | .error _ =>
    (none, ((writeFatEntry bpb new 0).run ((writePrev bpb prev endOfChain).run d).2).2)

/-- `allocate_cluster`: a failed step is undone as far as the device allows. -/
def allocateCluster (bpb : Fat32Bpb) (prev : Option Nat) (d : Disk) : Option Nat × Disk :=
  match findFreeCluster bpb d with
  | none => (none, d)
  | some new =>
    match (writeFatEntry bpb new endOfChain).run d with
    | (.error _, d₁) => (none, d₁)
    | (.ok _, d₁) =>
      match (writePrev bpb prev new).run d₁ with
      | (.error _, d₂) => (none, ((writeFatEntry bpb new 0).run d₂).2)
      | (.ok _, d₂) => clearCluster bpb prev new d₂

/-- The loop of `free_cluster_chain`. -/
def freeFrom (bpb : Fat32Bpb) : Nat → Nat → FatM Unit
  | 0, _ => pure ()
  | fuel + 1, cluster =>
    if cluster < 2 then pure ()
    else do
      let next ← Fallible.gets (followClusterChain bpb · cluster)
      writeFatEntry bpb cluster 0
      match next with
      | some n => if n < endMark then freeFrom bpb fuel n else pure ()
      | none => pure ()

/-- `free_cluster_chain`. -/
def freeClusterChain (bpb : Fat32Bpb) (start : Nat) : FatM Unit :=
  freeFrom bpb bpb.chainLimit start

end ZiqaKernel
