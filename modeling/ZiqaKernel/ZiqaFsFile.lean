/-
Files of ZiqaFS (`fs/ziqafs/file.rs`), the journal commit that `link` makes
(`fs/ziqafs/journal.rs`) and formatting (`fs/ziqafs/mod.rs`).  `usize` values
are natural numbers; `as u32` casts are written out, and so is the wrap of a
`usize` sum where it can be seen behind the cast.  The seconds counter that the
source reads from the timer is an argument.
-/
import ZiqaKernel.ZiqaFsDir

namespace ZiqaKernel

open Fallible

/-- The logical block of byte position `pos`, with the cast to `u32` that the
source makes before dividing. -/
def logicalOf (pos : Nat) : Nat := pos % 2 ^ 32 / 4096

def maxBlocks : Nat := 10 + 512 + 512 * 512

/-- The copy loop of `read_file`.  Every round copies at least one byte, so
`toRead` rounds suffice. -/
def readLoop (x : Inode) (offset toRead : Nat) : Nat → Nat → FsM (List UInt8)
  | 0, _ => pure []
  | fuel + 1, done =>
    if done < toRead then do
      let pos := offset + done
      let (phys, _) ← inodeGetBlock x (logicalOf pos)
      if phys = 0 then pure []
      else do
        let buf ← readBlock phys
        let chunk := min (toRead - done) (4096 - pos % 4096)
        let rest ← readLoop x offset toRead fuel (done + chunk)
        pure (buf.slice (pos % 4096) chunk ++ rest)
    else pure []

/-- `read_file`: the bytes copied to the front of a buffer of length `len`. -/
def readFile (id : UInt32) (offset len : Nat) : FsM (List UInt8) := do
  let x ← readInode id
  if offset ≥ x.size.toNat then pure []
  else
    let toRead := min (x.size.toNat - offset) len
    readLoop x offset toRead toRead 0

/-- The block image that one round of `write_file` starts from: the old
contents when some of them survive, zeros otherwise. -/
def oldContents (oldPhys : UInt32) (keep : Bool) : FsM Block :=
  if oldPhys ≠ 0 ∧ keep then readBlock oldPhys else pure Image.zero

/-- One round of the loop of `write_file` at byte position `pos` with the
remaining data `rest`: a new block takes the place of the old one. -/
def writeRound (x : Inode) (pos : Nat) (rest : List UInt8) : FsM Inode := do
  let (oldPhys, _) ← inodeGetBlock x (logicalOf pos)
  let old ← oldContents oldPhys (0 < pos % 4096 || rest.length < 4096)
  let chunk := min (4096 - pos % 4096) rest.length
  let buf := old.splice (pos % 4096) chunk fun k => rest.getD k 0
  let newPhys ← allocDataBlock
  writeBlock newPhys buf
  let x' ← inodeSetBlock x (logicalOf pos) newPhys 0
  if oldPhys ≠ 0 ∧ oldPhys ≠ newPhys then freeDataBlock oldPhys
  pure x'

/-- The loop of `write_file`.  `rest` is the data not yet written. -/
def writeLoop : Nat → Inode → Nat → List UInt8 → FsM Inode
  | 0, x, _, _ => pure x
  | fuel + 1, x, pos, rest =>
    if rest = [] then pure x
    else do
      let x' ← writeRound x pos rest
      let chunk := min (4096 - pos % 4096) rest.length
      writeLoop fuel x' (pos + chunk) (rest.drop chunk)

/-- `write_file`. -/
def writeFile (now : UInt32) (id : UInt32) (offset : Nat) (buf : List UInt8) : FsM Nat := do
  let x ← readInode id
  if x.mode = inodeModeDir then err (.other "Cannot write to directory")
  else do
    let x' ← writeLoop buf.length x offset buf
    writeInode id { x' with
      -- the sum is a `usize`, so it wraps before it is compared with the old size
      size := UInt32.ofNat (max ((offset + buf.length) % 2 ^ 64) x'.size.toNat)
      mtime := now }
    flushSuperblock
    pure buf.length

/-- One round of the first loop of `truncate`.  A direct block is written back
as it was read; for a block behind the indirect block, word number
`logical - 10` of the indirect block is zeroed. -/
def truncateRound (x : Inode) (logical : Nat) : FsM Unit := do
  let (phys, _) ← inodeGetBlock x logical
  if phys ≠ 0 then do
    let blockBuf ← readBlock phys
    if logical < 10 then writeBlock phys blockBuf
    else
      let idx := logical - 10
      if idx < 1024 ∧ x.indirect ≠ 0 then do
        let buf ← readBlock x.indirect
        writeBlock x.indirect (buf.setWord idx 0)

/-- The part of `truncate` that zeroes the last block past the new size. -/
def zeroTail (x : Inode) (newSize : Nat) : FsM Unit :=
  if newSize > 0 ∧ newSize % 4096 ≠ 0 then do
    let (phys, _) ← inodeGetBlock x (logicalOf (newSize - 1))
    if phys ≠ 0 then do
      let blockBuf ← readBlock phys
      writeBlock phys (blockBuf.splice (newSize % 4096) (4096 - newSize % 4096) fun _ => 0)
  else pure ()

/-- `truncate`. -/
def truncate (now : UInt32) (id : UInt32) (newSize : Nat) : FsM Unit := do
  let x ← readInode id
  if x.mode = inodeModeDir then err (.other "Cannot truncate directory")
  else do
    let oldBlocks := blocksFor x.size.toNat % 2 ^ 32
    let newBlocks := blocksFor newSize % 2 ^ 32
    (List.range' newBlocks (oldBlocks - newBlocks)).forM (truncateRound x)
    zeroTail x newSize
    writeInode id { x with size := UInt32.ofNat newSize, mtime := now }
    flushSuperblock

def invalidName (name : Name) : Bool := name.isEmpty || 252 < name.length

/-- The common start of `create_file` and `create_dir`. -/
def checkNewEntry (parentId : UInt32) (name : Name) : FsM Unit :=
  if invalidName name then err (.other "Invalid name")
  else do
    let parent ← readInode parentId
    if parent.mode ≠ inodeModeDir then err (.other "Not a directory")
    else do
      let found ← lookupInDir parent name
      if found.isSome then err (.other "File exists") else pure ()

/-- `create_file`. -/
def createFile (now : UInt32) (parentId : UInt32) (name : Name) : FsM UInt32 := do
  checkNewEntry parentId name
  let newId ← allocInode inodeModeFile now
  dirAddEntry parentId newId name
  flushSuperblock
  pure newId

/-- `create_dir`; the timer is read once for the inode and once for its first
block. -/
def createDir (now now' : UInt32) (parentId : UInt32) (name : Name) : FsM UInt32 := do
  checkNewEntry parentId name
  let newId ← allocInode inodeModeDir now
  let _ ← initDirBlock newId parentId now'
  dirAddEntry parentId newId name
  flushSuperblock
  pure newId

/-- What the search loop of `unlink` carries: the inode found last, the block
it was found in, and the block read last with its contents. -/
structure UnlinkScan where
  targetId : Option UInt32
  foundPhys : UInt32
  lastPhys : UInt32
  lastBuf : Block

/-- A block that `unlink` reads unless it is the one read last. -/
def cachedBlock (scan : UnlinkScan) (phys : UInt32) : FsM Block :=
  if phys ≠ scan.lastPhys then readBlock phys else pure scan.lastBuf

/-- One round of the search loop of `unlink`. -/
def unlinkScanRound (parent : Inode) (name : Name) (scan : UnlinkScan)
    (logical : Nat) : FsM UnlinkScan := do
  let (phys, _) ← inodeGetBlock parent logical
  if phys = 0 then pure scan
  else do
    let lastBuf ← cachedBlock scan phys
    match findEntry lastBuf 4096 name with
    | some id =>
      pure { targetId := some id, foundPhys := phys, lastPhys := phys, lastBuf }
    | none => pure { scan with lastPhys := phys, lastBuf }

/-- `u16::saturating_sub(1)`. -/
def pred16 (v : UInt16) : UInt16 := if v = 0 then 0 else v - 1

/-- The end of `unlink`: free the inode with its last link, or store it. -/
def dropLink (targetId : UInt32) (target : Inode) : FsM Unit :=
  if target.nlink = 0 then do
    freeInodeBlocks target
    freeInode targetId
  else writeInode targetId target

/-- `unlink`. -/
def unlink (now : UInt32) (parentId : UInt32) (name : Name) : FsM Unit := do
  let parent ← readInode parentId
  let scan ← (List.range (blocksFor parent.size.toNat)).foldlM (unlinkScanRound parent name)
    { targetId := none, foundPhys := 0, lastPhys := 0, lastBuf := Image.zero }
  let targetId ← ofOption (.error (.other "File not found")) scan.targetId
  let x ← readInode targetId
  let target := { x with nlink := pred16 x.nlink, ctime := now }
  let buf ← cachedBlock scan scan.foundPhys
  writeBlock scan.foundPhys (removeEntryRaw buf 4096 targetId).1
  dropLink targetId target
  flushSuperblock

/-- The loop of `rename` that takes the old entry out of its directory. -/
def renameRemove (srcDir : Inode) (targetId : UInt32) : List Nat → FsM Unit
  | [] => pure ()
  | logical :: rest => do
      let (phys, _) ← inodeGetBlock srcDir logical
      if phys = 0 then renameRemove srcDir targetId rest
      else do
        let buf ← readBlock phys
        let (buf', removed) := removeEntryRaw buf 4096 targetId
        if removed then writeBlock phys buf'
        else renameRemove srcDir targetId rest

/-- `rename`. -/
def rename (srcParent : UInt32) (name : Name) (dstParent : UInt32) (newName : Name) : FsM Unit :=
  if invalidName newName then err (.other "Invalid name")
  else do
    let srcDir ← readInode srcParent
    let found ← lookupInDir srcDir name
    let targetId ← ofOption (.error (.other "File not found")) found
    renameRemove srcDir targetId (List.range (blocksFor srcDir.size.toNat))
    dirAddEntry dstParent targetId newName

def journalMagic : UInt32 := 0x4A524E4C

/-- `journal_commit` of a `WriteInode` record with the given payload.  The
header is 64 bytes, followed by 63 entries of 64 bytes. -/
def journalCommit (op : UInt8) (block : UInt32) (payload : List UInt8) : FsM Unit := do
  let buf ← readBlock journalBlock
  if u32At buf.get 0 ≠ journalMagic then pure ()
  else do
    let head := u32At buf.get 4
    let committed := u32At buf.get 8
    let entryOff := 64 + head.toNat % 63 * 64
    let data : Image 56 := Image.ofFn fun k => payload.getD k 0
    let sum := crc32 (data.slice 0 52)
    let buf := buf.splice entryOff 4 fun k => if k = 0 then op else 0
    let buf := buf.splice (entryOff + 4) 4 (le32 block)
    let buf := buf.splice (entryOff + 8) 52 data.get
    let buf := buf.splice (entryOff + 60) 4 (le32 sum)
    let buf := buf.splice 4 4 (le32 ((head + 1) % 63))
    let buf := buf.splice 8 4 (le32 (committed + 1))
    writeBlock journalBlock buf

/-- `link` up to its journal commit, with the inode that it is about to store; a
failed commit is ignored. -/
def linkCommit (now : UInt32) (srcId dstParent : UInt32) (name : Name) : FsM Inode :=
  if invalidName name then err (.other "Invalid name")
  else do
    let x ← readInode srcId
    if x.mode = inodeModeDir then err (.other "Cannot hard-link a directory")
    else do
      let dstDir ← readInode dstParent
      let found ← lookupInDir dstDir name
      if found.isSome then err (.other "File exists")
      else do
        let x' := { x with nlink := x.nlink + 1, ctime := now }
        let _ ← attempt (journalCommit 3 srcId ((List.range 56).map x'.toBytes))
        pure x'

/-- `link`. -/
def link (now : UInt32) (srcId dstParent : UInt32) (name : Name) : FsM Unit := do
  let x' ← linkCommit now srcId dstParent name
  writeInode srcId x'
  dirAddEntry dstParent srcId name

def ziqaMagic : UInt32 := 0x21514146

/-- `create_root_dir`. -/
def createRootDir (now : UInt32) : FsM Unit := do
  let rootId ← allocInode inodeModeDir now
  let rootBlock ← allocDataBlock
  let x ← readInode rootId
  writeInode rootId { x with
    blocks := Function.update x.blocks 0 rootBlock
    size := 4096 }
  writeBlock rootBlock (writeEntryOrKeep Image.zero rootId dotName)

/-- `(total_sectors * 512 / 4096) as u32`. -/
def deviceBlocks (d : Disk) : UInt32 :=
  UInt32.ofNat (d.totalSectors * 512 % 2 ^ 64 / 4096)

/-- The superblock that `format` starts from, with the dirty flag. -/
def initialSuperblock (d : Disk) : Superblock where
  magic := ziqaMagic
  totalBlocks := deviceBlocks d
  inodeCount := inodeCount
  firstDataBlock := firstDataBlock
  blockSize := 4096
  flags := 1
  freeBlocks := UInt32.ofNat ((deviceBlocks d).toNat - firstDataBlock.toNat)
  freeInodes := inodeCount - 1
  reserved := Image.zero

/-- The body of `format` on a volume that holds the initial superblock. -/
def formatBody (now : UInt32) : FsM Unit := do
  flushSuperblock
  writeBlock bitmapBlock ((List.range firstDataBlock.toNat).foldl setBitmapBit Image.zero)
  writeBlock journalBlock (Image.zero.splice 0 4 (le32 journalMagic))
  writeBlock inodeTableBlock Image.zero
  createRootDir now
  modify fun fs => { fs with sb := { fs.sb with flags := 0 } }
  flushSuperblock

/-- `format`: the outcome, and the volume if there is one. -/
def format (now : UInt32) (d : Disk) : Except Failure Unit × ZiqaFs :=
  (formatBody now).run { device := d, sb := initialSuperblock d }

end ZiqaKernel
