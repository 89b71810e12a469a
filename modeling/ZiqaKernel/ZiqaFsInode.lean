/-
Inodes of ZiqaFS and their block maps (`fs/ziqafs/inode.rs`).
-/
import ZiqaKernel.ZiqaFsBlock

namespace ZiqaKernel

open Fallible

def inodeCount : UInt32 := 32
def rootInode : UInt32 := 1

def inodeModeFile : UInt16 := 0o100000
def inodeModeDir : UInt16 := 0o040000

/-- Named, so that `0 : Fin 10` is the same term in all modules. -/
instance directCount_neZero : NeZero 10 := ⟨by decide⟩

/-- The packed on-disk inode, 136 bytes. -/
structure Inode where
  checksum : UInt32
  mode : UInt16
  nlink : UInt16
  uid : UInt16
  gid : UInt16
  size : UInt32
  mtime : UInt32
  ctime : UInt32
  atime : UInt32
  blocks : Fin 10 → UInt32
  blockChecksums : Fin 10 → UInt32
  indirect : UInt32
  doubleIndirect : UInt32
  indirectChecksum : UInt32
  doubleIndirectChecksum : UInt32
  reserved : Image 12

namespace Inode

/-- Byte `i` of the packed representation. -/
def toBytes (x : Inode) (i : Nat) : UInt8 :=
  if i < 4 then le32 x.checksum i
  else if i < 6 then le16 x.mode (i - 4)
  else if i < 8 then le16 x.nlink (i - 6)
  else if i < 10 then le16 x.uid (i - 8)
  else if i < 12 then le16 x.gid (i - 10)
  else if i < 16 then le32 x.size (i - 12)
  else if i < 20 then le32 x.mtime (i - 16)
  else if i < 24 then le32 x.ctime (i - 20)
  else if i < 28 then le32 x.atime (i - 24)
  else if h : (i - 28) / 4 < 10 then le32 (x.blocks ⟨(i - 28) / 4, h⟩) ((i - 28) % 4)
  else if h : (i - 68) / 4 < 10 then
    le32 (x.blockChecksums ⟨(i - 68) / 4, h⟩) ((i - 68) % 4)
  else if i < 112 then le32 x.indirect (i - 108)
  else if i < 116 then le32 x.doubleIndirect (i - 112)
  else if i < 120 then le32 x.indirectChecksum (i - 116)
  else if i < 124 then le32 x.doubleIndirectChecksum (i - 120)
  else x.reserved.get (i - 124)

def ofBytes (f : Nat → UInt8) : Inode where
  checksum := u32At f 0
  mode := u16At f 4
  nlink := u16At f 6
  uid := u16At f 8
  gid := u16At f 10
  size := u32At f 12
  mtime := u32At f 16
  ctime := u32At f 20
  atime := u32At f 24
  blocks := fun i => u32At f (28 + 4 * i)
  blockChecksums := fun i => u32At f (68 + 4 * i)
  indirect := u32At f 108
  doubleIndirect := u32At f 112
  indirectChecksum := u32At f 116
  doubleIndirectChecksum := u32At f 120
  reserved := Image.ofFn fun i => f (124 + i)

variable (x : Inode)

theorem toBytes_blocks (i : Fin 10) {k : Nat} (hk : k < 4) :
    x.toBytes (28 + 4 * i + k) = le32 (x.blocks i) k := by
  have hi := i.isLt
  have hdiv : (28 + 4 * i.val + k - 28) / 4 = i := by omega
  have hmod : (28 + 4 * i.val + k - 28) % 4 = k := by omega
  simp [toBytes, show ¬ 28 + 4 * i.val + k < 4 by omega,
    show ¬ 28 + 4 * i.val + k < 6 by omega,
    show ¬ 28 + 4 * i.val + k < 8 by omega,
    show ¬ 28 + 4 * i.val + k < 10 by omega,
    show ¬ 28 + 4 * i.val + k < 12 by omega,
    show ¬ 28 + 4 * i.val + k < 16 by omega,
    show ¬ 28 + 4 * i.val + k < 20 by omega,
    show ¬ 28 + 4 * i.val + k < 24 by omega,
    show ¬ 28 + 4 * i.val + k < 28 by omega, hdiv, hmod]

theorem toBytes_blockChecksums (i : Fin 10) {k : Nat} (hk : k < 4) :
    x.toBytes (68 + 4 * i + k) = le32 (x.blockChecksums i) k := by
  have hi := i.isLt
  have hdiv : (68 + 4 * i.val + k - 68) / 4 = i := by omega
  have hmod : (68 + 4 * i.val + k - 68) % 4 = k := by omega
  have hblocks : ¬ (68 + 4 * i.val + k - 28) / 4 < 10 := by omega
  simp [toBytes, show ¬ 68 + 4 * i.val + k < 4 by omega,
    show ¬ 68 + 4 * i.val + k < 6 by omega,
    show ¬ 68 + 4 * i.val + k < 8 by omega,
    show ¬ 68 + 4 * i.val + k < 10 by omega,
    show ¬ 68 + 4 * i.val + k < 12 by omega,
    show ¬ 68 + 4 * i.val + k < 16 by omega,
    show ¬ 68 + 4 * i.val + k < 20 by omega,
    show ¬ 68 + 4 * i.val + k < 24 by omega,
    show ¬ 68 + 4 * i.val + k < 28 by omega, hblocks, hdiv, hmod]

theorem toBytes_reserved {k : Nat} : x.toBytes (124 + k) = x.reserved.get k := by
  have hblocks : ¬ (124 + k - 28) / 4 < 10 := by omega
  have hsums : ¬ (124 + k - 68) / 4 < 10 := by omega
  simp [toBytes, show ¬ 124 + k < 4 by omega, show ¬ 124 + k < 6 by omega,
    show ¬ 124 + k < 8 by omega, show ¬ 124 + k < 10 by omega,
    show ¬ 124 + k < 12 by omega, show ¬ 124 + k < 16 by omega,
    show ¬ 124 + k < 20 by omega, show ¬ 124 + k < 24 by omega,
    show ¬ 124 + k < 28 by omega, show ¬ 124 + k < 112 by omega,
    show ¬ 124 + k < 116 by omega, show ¬ 124 + k < 120 by omega,
    hblocks, hsums]

theorem ofBytes_eq {f : Nat → UInt8} {x : Inode}
    (h : ∀ k < 136, f k = x.toBytes k) : ofBytes f = x := by
  have scalar32 : ∀ (off : Nat) (v : UInt32), off + 4 ≤ 136 →
      (∀ k < 4, x.toBytes (off + k) = le32 v k) → u32At f off = v := by
    intro off v hoff hv
    apply u32At_eq
    intro k hk
    rw [h (off + k) (by omega), hv k hk]
  have scalar16 : ∀ (off : Nat) (v : UInt16), off + 2 ≤ 136 →
      (∀ k < 2, x.toBytes (off + k) = le16 v k) → u16At f off = v := by
    intro off v hoff hv
    apply u16At_eq
    intro k hk
    rw [h (off + k) (by omega), hv k hk]
  have hblocks : (ofBytes f).blocks = x.blocks := by
    funext i
    exact scalar32 _ _ (by omega) fun k hk => toBytes_blocks x i hk
  have hsums : (ofBytes f).blockChecksums = x.blockChecksums := by
    funext i
    exact scalar32 _ _ (by omega) fun k hk => toBytes_blockChecksums x i hk
  have hreserved : (ofBytes f).reserved = x.reserved := by
    apply Image.ext
    intro k hk
    simp only [ofBytes, Image.get_ofFn, hk, ↓reduceIte]
    rw [h _ (by omega), toBytes_reserved]
  cases x with
  | mk checksum mode nlink uid gid size mtime ctime atime blocks sums ind dbl
      indSum dblSum reserved =>
      simp only [ofBytes] at hblocks hsums hreserved ⊢
      rw [hblocks, hsums, hreserved]
      congr 1
      · exact scalar32 0 _ (by omega) fun k hk => by interval_cases k <;> rfl
      · exact scalar16 4 _ (by omega) fun k hk => by interval_cases k <;> rfl
      · exact scalar16 6 _ (by omega) fun k hk => by interval_cases k <;> rfl
      · exact scalar16 8 _ (by omega) fun k hk => by interval_cases k <;> rfl
      · exact scalar16 10 _ (by omega) fun k hk => by interval_cases k <;> rfl
      · exact scalar32 12 _ (by omega) fun k hk => by interval_cases k <;> rfl
      · exact scalar32 16 _ (by omega) fun k hk => by interval_cases k <;> rfl
      · exact scalar32 20 _ (by omega) fun k hk => by interval_cases k <;> rfl
      · exact scalar32 24 _ (by omega) fun k hk => by interval_cases k <;> rfl
      · exact scalar32 108 _ (by omega) fun k hk => by interval_cases k <;> rfl
      · exact scalar32 112 _ (by omega) fun k hk => by interval_cases k <;> rfl
      · exact scalar32 116 _ (by omega) fun k hk => by interval_cases k <;> rfl
      · exact scalar32 120 _ (by omega) fun k hk => by interval_cases k <;> rfl

theorem toBytes_ofBytes (f : Nat → UInt8) {k : Nat} (hk : k < 136) :
    (ofBytes f).toBytes k = f k := by
  have word : ∀ off i, i < 4 → off + i = k → le32 (u32At f off) i = f k := by
    rintro off i hi rfl
    exact le32_u32At f off hi
  have half : ∀ off i, i < 2 → off + i = k → le16 (u16At f off) i = f k := by
    rintro off i hi rfl
    exact le16_u16At f off hi
  rw [toBytes]
  by_cases h0 : k < 4
  · rw [if_pos h0]
    exact word 0 k (by omega) (by omega)
  rw [if_neg h0]
  by_cases h1 : k < 6
  · rw [if_pos h1]
    exact half 4 _ (by omega) (by omega)
  rw [if_neg h1]
  by_cases h2 : k < 8
  · rw [if_pos h2]
    exact half 6 _ (by omega) (by omega)
  rw [if_neg h2]
  by_cases h3 : k < 10
  · rw [if_pos h3]
    exact half 8 _ (by omega) (by omega)
  rw [if_neg h3]
  by_cases h4 : k < 12
  · rw [if_pos h4]
    exact half 10 _ (by omega) (by omega)
  rw [if_neg h4]
  by_cases h5 : k < 16
  · rw [if_pos h5]
    exact word 12 _ (by omega) (by omega)
  rw [if_neg h5]
  by_cases h6 : k < 20
  · rw [if_pos h6]
    exact word 16 _ (by omega) (by omega)
  rw [if_neg h6]
  by_cases h7 : k < 24
  · rw [if_pos h7]
    exact word 20 _ (by omega) (by omega)
  rw [if_neg h7]
  by_cases h8 : k < 28
  · rw [if_pos h8]
    exact word 24 _ (by omega) (by omega)
  rw [if_neg h8]
  by_cases h9 : (k - 28) / 4 < 10
  · rw [dif_pos h9]
    exact word _ _ (by omega) (by dsimp only; omega)
  rw [dif_neg h9]
  by_cases h10 : (k - 68) / 4 < 10
  · rw [dif_pos h10]
    exact word _ _ (by omega) (by dsimp only; omega)
  rw [dif_neg h10]
  by_cases h11 : k < 112
  · rw [if_pos h11]
    exact word 108 _ (by omega) (by omega)
  rw [if_neg h11]
  by_cases h12 : k < 116
  · rw [if_pos h12]
    exact word 112 _ (by omega) (by omega)
  rw [if_neg h12]
  by_cases h13 : k < 120
  · rw [if_pos h13]
    exact word 116 _ (by omega) (by omega)
  rw [if_neg h13]
  by_cases h14 : k < 124
  · rw [if_pos h14]
    exact word 120 _ (by omega) (by omega)
  rw [if_neg h14]
  change (Image.ofFn fun i => f (124 + i) : Image 12).get (k - 124) = f k
  rw [Image.get_ofFn, if_pos (by omega)]
  exact congrArg f (by omega)

theorem ofBytes_congr {f g : Nat → UInt8} (h : ∀ k < 136, f k = g k) : ofBytes f = ofBytes g := by
  have word : ∀ off, off + 4 ≤ 136 → u32At f off = u32At g off :=
    fun off hoff => u32At_congr fun k hk => h (off + k) (by omega)
  have half : ∀ off, off + 2 ≤ 136 → u16At f off = u16At g off :=
    fun off hoff => u16At_congr fun k hk => h (off + k) (by omega)
  have hreserved : (Image.ofFn fun i => f (124 + i) : Image 12) =
      Image.ofFn fun i => g (124 + i) := by
    apply Image.ext
    intro k hk
    simp only [Image.get_ofFn, hk, ↓reduceIte]
    exact h (124 + k) (by omega)
  have hblocks : (fun i : Fin 10 => u32At f (28 + 4 * i)) =
      fun i : Fin 10 => u32At g (28 + 4 * i) :=
    funext fun i => word _ (by omega)
  have hsums : (fun i : Fin 10 => u32At f (68 + 4 * i)) = fun i : Fin 10 => u32At g (68 + 4 * i) :=
    funext fun i => word _ (by omega)
  simp only [ofBytes, word 0, half 4, half 6, half 8, half 10, word 12, word 16,
    word 20, word 24, word 108, word 112, word 116, word 120, hblocks, hsums,
    hreserved, Nat.reduceAdd, Nat.reduceLeDiff]

end Inode

/-- `calculate_inode_checksum`: the CRC of the packed inode with a zero
checksum field. -/
def calculateInodeChecksum (x : Inode) : UInt32 :=
  crc32 ((List.range 136).map { x with checksum := 0 }.toBytes)

/-- Whether the slot of an inode number lies inside the one-block table. -/
def SlotFits (id : UInt32) : Prop := id.toNat * 136 + 136 ≤ 4096

instance (id : UInt32) : Decidable (SlotFits id) :=
  inferInstanceAs (Decidable (_ ≤ _))

def slotInode (table : Block) (id : UInt32) : Inode :=
  Inode.ofBytes fun k => table.get (id.toNat * 136 + k)

def setSlot (table : Block) (id : UInt32) (bytes : Nat → UInt8) : Block :=
  table.splice (id.toNat * 136) 136 bytes

/-- `read_inode`.  The source does not test that the slot ends inside the table
block; past it the unaligned read leaves the stack buffer. -/
def readInode (id : UInt32) : FsM Inode :=
  if id ≥ inodeCount then err .outOfBounds
  else do
    let table ← readBlock inodeTableBlock
    if SlotFits id then
      let x := slotInode table id
      if x.checksum ≠ calculateInodeChecksum x then
        err (.other "Inode checksum mismatch")
      else pure x
    else faulted

/-- `write_inode`: stamp the checksum and patch one slot. -/
def writeInode (id : UInt32) (x : Inode) : FsM Unit :=
  if id ≥ inodeCount then err .outOfBounds
  else do
    let table ← readBlock inodeTableBlock
    if SlotFits id then
      let stamped := { x with checksum := calculateInodeChecksum x }
      writeBlock inodeTableBlock (setSlot table id stamped.toBytes)
    else faulted

/-- The inode `alloc_inode` stores, before its checksum is stamped. -/
def freshInode (mode : UInt16) (now : UInt32) : Inode where
  checksum := 0
  mode := mode
  nlink := 1
  uid := 0
  gid := 0
  size := 0
  mtime := now
  ctime := now
  atime := now
  blocks := fun _ => 0
  blockChecksums := fun _ => 0
  indirect := 0
  doubleIndirect := 0
  indirectChecksum := 0
  doubleIndirectChecksum := 0
  reserved := Image.zero

/-- `alloc_inode`.  A slot counts as free when its first byte, the low byte of
the checksum, is zero. -/
def allocInode (mode : UInt16) (now : UInt32) : FsM UInt32 := do
  let table ← readBlock inodeTableBlock
  let i ← ofOption (.error (.other "No free inodes"))
    (inodeFindFree table inodeCount.toNat 136 1)
  let id := UInt32.ofNat i
  if SlotFits id then do
    let x := freshInode mode now
    let stamped := { x with checksum := calculateInodeChecksum x }
    writeBlock inodeTableBlock (setSlot table id stamped.toBytes)
    modify fun fs =>
      { fs with sb := { fs.sb with freeInodes := pred32 fs.sb.freeInodes } }
    pure id
  else faulted

/-- `free_inode`: zero the slot. -/
def freeInode (id : UInt32) : FsM Unit :=
  if id ≥ inodeCount then err .outOfBounds
  else do
    let table ← readBlock inodeTableBlock
    if SlotFits id then do
      writeBlock inodeTableBlock (setSlot table id fun _ => 0)
      modify fun fs =>
        { fs with sb := { fs.sb with freeInodes := succ32 fs.sb.freeInodes } }
    else faulted

/-- Entry `idx` of a pointer block seen as an array of (block, checksum)
pairs. -/
def ptr (b : Block) (idx : Nat) : UInt32 × UInt32 :=
  (b.word (2 * idx), b.word (2 * idx + 1))

def setPtr (b : Block) (idx : Nat) (p : UInt32 × UInt32) : Block :=
  (b.setWord (2 * idx) p.1).setWord (2 * idx + 1) p.2

theorem word_setPtr (b : Block) {idx : Nat} (hidx : idx < 512) (p : UInt32 × UInt32) (w : Nat) :
    (setPtr b idx p).word w =
      if w = 2 * idx then p.1 else if w = 2 * idx + 1 then p.2 else b.word w := by
  unfold setPtr
  by_cases hodd : w = 2 * idx + 1
  · rw [hodd, Image.word_setWord_self _ _ (by omega), if_neg (by omega), if_pos rfl]
  · rw [Image.word_setWord_ne _ _ hodd, if_neg hodd]
    by_cases heven : w = 2 * idx
    · rw [heven, Image.word_setWord_self _ _ (by omega), if_pos rfl]
    · rw [Image.word_setWord_ne _ _ heven, if_neg heven]

/-- The test made before a pointer block is used: a stored checksum of zero
means that none is recorded. -/
def checksumMatches (stored : UInt32) (b : Block) : Bool :=
  !(stored != 0 && crc32 b.toList != stored)

@[simp]
theorem checksumMatches_self (b : Block) : checksumMatches (crc32 b.toList) b = true := by
  simp [checksumMatches]

/-- `inode_get_block`. -/
def inodeGetBlock (x : Inode) (logical : Nat) : FsM (UInt32 × UInt32) :=
  if h : logical < 10 then
    pure (x.blocks ⟨logical, h⟩, x.blockChecksums ⟨logical, h⟩)
  else
    let idx := logical - 10
    if idx < 512 then
      if x.indirect = 0 then pure (0, 0)
      else do
        let buf ← readBlock x.indirect
        if checksumMatches x.indirectChecksum buf then pure (ptr buf idx)
        else err (.other "Indirect block checksum mismatch")
    else
      let idx2 := idx - 512
      if idx2 < 512 * 512 then
        if x.doubleIndirect = 0 then pure (0, 0)
        else do
          let buf ← readBlock x.doubleIndirect
          if checksumMatches x.doubleIndirectChecksum buf then
            let l1 := ptr buf (idx2 / 512)
            if l1.1 = 0 then pure (0, 0)
            else do
              let buf2 ← readBlock l1.1
              if checksumMatches l1.2 buf2 then pure (ptr buf2 (idx2 % 512))
              else err (.other "L2 pointer block checksum mismatch")
          else err (.other "Double indirect block checksum mismatch")
      else err (.other "File too large")

/-- The block number to use for a pointer: the one recorded, or a new one. -/
def orAlloc (recorded : UInt32) : FsM UInt32 :=
  if recorded = 0 then allocDataBlock else pure recorded

/-- The part of `inode_set_block` that goes through the indirect block. -/
def setSingle (x : Inode) (idx : Nat) (entry : UInt32 × UInt32) : FsM Inode := do
  let indirect ← orAlloc x.indirect
  let buf ← readBlock indirect
  let buf' := setPtr buf idx entry
  writeBlock indirect buf'
  pure { x with indirect := indirect, indirectChecksum := crc32 buf'.toList }

/-- The part of `inode_set_block` that goes through the double-indirect
block. -/
def setDouble (x : Inode) (idx2 : Nat) (entry : UInt32 × UInt32) : FsM Inode := do
  let double ← orAlloc x.doubleIndirect
  let buf ← readBlock double
  let l1Phys ← orAlloc (ptr buf (idx2 / 512)).1
  let buf2 ← readBlock l1Phys
  let buf2' := setPtr buf2 (idx2 % 512) entry
  writeBlock l1Phys buf2'
  let buf' := setPtr buf (idx2 / 512) (l1Phys, crc32 buf2'.toList)
  writeBlock double buf'
  pure { x with
    doubleIndirect := double
    doubleIndirectChecksum := crc32 buf'.toList }

/-- `inode_set_block`.  The source tests `logical < 10` twice in a row; the
second test is never reached with a small index. -/
def inodeSetBlock (x : Inode) (logical : Nat) (newPhys newChecksum : UInt32) : FsM Inode :=
  if h : logical < 10 then
    pure { x with
      blocks := Function.update x.blocks ⟨logical, h⟩ newPhys
      blockChecksums := Function.update x.blockChecksums ⟨logical, h⟩ newChecksum }
  else if logical - 10 < 512 then
    setSingle x (logical - 10) (newPhys, newChecksum)
  else if logical - 10 - 512 < 512 * 512 then
    setDouble x (logical - 10 - 512) (newPhys, newChecksum)
  else err (.other "File too large")

/-- Fill word `w` of a pointer block with a new block when it is zero. -/
def allocWord (b : UInt32) (buf : Block) (w : Nat) : FsM UInt32 :=
  if buf.word w = 0 then do
    let fresh ← allocDataBlock
    writeBlock b (buf.setWord w fresh)
    pure fresh
  else pure (buf.word w)

/-- The part of `inode_alloc_block` that goes through the indirect block. -/
def allocSingle (x : Inode) (idx : Nat) : FsM (UInt32 × Inode) := do
  let indirect ← orAlloc x.indirect
  let buf ← readBlock indirect
  let b ← allocWord indirect buf idx
  pure (b, { x with indirect := indirect })

/-- The part of `inode_alloc_block` that goes through the double-indirect
block. -/
def allocDouble (x : Inode) (idx2 : Nat) : FsM (UInt32 × Inode) := do
  let double ← orAlloc x.doubleIndirect
  let buf ← readBlock double
  let l1Phys ← allocWord double buf (idx2 / 1024)
  let buf2 ← readBlock l1Phys
  let b ← allocWord l1Phys buf2 (idx2 % 1024)
  pure (b, { x with doubleIndirect := double })

/-- `inode_alloc_block`.  Unlike the two functions above it reads pointer
blocks as arrays of 1024 plain block numbers. -/
def inodeAllocBlock (x : Inode) (logical : Nat) : FsM (UInt32 × Inode) :=
  if h : logical < 10 then do
    let b ← orAlloc (x.blocks ⟨logical, h⟩)
    pure (b, { x with blocks := Function.update x.blocks ⟨logical, h⟩ b })
  else if logical - 10 < 1024 then allocSingle x (logical - 10)
  else if logical - 10 - 1024 < 1024 * 1024 then
    allocDouble x (logical - 10 - 1024)
  else err (.other "File too large")

def freeIfSet (b : UInt32) : FsM Unit :=
  if b ≠ 0 then freeDataBlock b else pure ()

def freeWords (buf : Block) : FsM Unit :=
  (List.range 1024).forM fun w => freeIfSet (buf.word w)

/-- The part of `free_inode_blocks` for the indirect block. -/
def freeSingle (x : Inode) : FsM Unit :=
  if x.indirect ≠ 0 then do
    let buf ← readBlock x.indirect
    freeWords buf
    freeDataBlock x.indirect
  else pure ()

def freeLevel (b : UInt32) : FsM Unit :=
  if b ≠ 0 then do
    let buf2 ← readBlock b
    freeWords buf2
    freeDataBlock b
  else pure ()

/-- The part of `free_inode_blocks` for the double-indirect block. -/
def freeDouble (x : Inode) : FsM Unit :=
  if x.doubleIndirect ≠ 0 then do
    let buf ← readBlock x.doubleIndirect
    (List.range 1024).forM fun w => freeLevel (buf.word w)
    freeDataBlock x.doubleIndirect
  else pure ()

/-- `free_inode_blocks`, which also reads pointer blocks as plain words. -/
def freeInodeBlocks (x : Inode) : FsM Unit := do
  (List.finRange 10).forM fun i => freeIfSet (x.blocks i)
  freeSingle x
  freeDouble x

end ZiqaKernel
