/-
Directory entries of ZiqaFS (`fs/ziqafs/dir.rs`).  A name is the list of its
UTF-8 bytes.
-/
import ZiqaKernel.Utf8
import ZiqaKernel.ZiqaFsInode

namespace ZiqaKernel

abbrev Name : Type := List UInt8

/-- The `len` bytes of a block from position `off` on. -/
def Image.slice {n : Nat} (b : Image n) (off len : Nat) : List UInt8 :=
  (List.range len).map fun k => b.get (off + k)

@[simp]
theorem Image.length_slice {n : Nat} (b : Image n) (off len : Nat) :
    (b.slice off len).length = len := by
  simp [Image.slice]

theorem Image.getElem?_slice {n : Nat} (b : Image n) (off : Nat) {len k : Nat}
    (hk : k < len) : (b.slice off len)[k]? = some (b.get (off + k)) := by
  simp [Image.slice, hk]

/-- The loop of `dirent_foreach`, collecting the callback's arguments.  Every
round advances by at least eight bytes, so 513 rounds always suffice. -/
def direntScan (buf : Block) (limit : Nat) : Nat → Nat → List (UInt32 × Name)
  | 0, _ => []
  | fuel + 1, off =>
    if off + 8 ≤ limit then
      let inode := u32At buf.get off
      let nameLen := (u16At buf.get (off + 4)).toNat
      let entrySize := (u16At buf.get (off + 6)).toNat
      if entrySize < 8 ∨ entrySize > 260 ∨ off + entrySize > 4096 then []
      else
        let rest := direntScan buf limit fuel (off + entrySize)
        if inode ≠ 0 ∧ 0 < nameLen ∧ nameLen ≤ 252 ∧ off + 8 + nameLen ≤ 4096 ∧
            utf8Valid (buf.slice (off + 8) nameLen) = true then
          (inode, buf.slice (off + 8) nameLen) :: rest
        else rest
    else []

/-- `dirent_foreach` on a whole block. -/
def direntForeach (buf : Block) (size : Nat) : List (UInt32 × Name) :=
  direntScan buf (min size 4096) 513 0

/-- `find_entry`: the last entry with that name wins. -/
def findEntry (buf : Block) (size : Nat) (name : Name) : Option UInt32 :=
  (direntForeach buf size).foldl
    (fun result entry => if entry.2 = name then some entry.1 else result) none

/-- The search loop of `write_entry_raw` for an offset to write at. -/
def entrySlot (buf : Block) (entrySize : Nat) : Nat → Nat → Option Nat
  | 0, _ => none
  | fuel + 1, off =>
    if off + entrySize > 4096 then none
    else if u32At buf.get off = 0 then some off
    else
      let es := (u16At buf.get (off + 6)).toNat
      if es < 8 then some off else entrySlot buf entrySize fuel (off + es)

/-- `write_entry_raw`. -/
def writeEntryRaw (buf : Block) (target : UInt32) (name : Name) : Except AbiError Block :=
  if name.length > 252 then .error (.other "Name too long")
  else
    let entrySize := (8 + name.length + 3) / 4 * 4
    match entrySlot buf entrySize 513 0 with
    | none => .error (.other "Directory block full")
    | some off =>
      .ok ((((buf.splice off 4 (le32 target)).splice (off + 4) 2
        (le16 (UInt16.ofNat name.length))).splice (off + 6) 2
        (le16 (UInt16.ofNat entrySize))).splice (off + 8) name.length
        fun k => name.getD k 0)

/-- The search loop of `remove_entry_raw`. -/
def removeSlot (buf : Block) (limit : Nat) (target : UInt32) : Nat → Nat → Option Nat
  | 0, _ => none
  | fuel + 1, off =>
    if off + 8 ≤ limit then
      let entrySize := (u16At buf.get (off + 6)).toNat
      if entrySize < 8 ∨ off + entrySize > 4096 then none
      else if u32At buf.get off = target then some off
      else removeSlot buf limit target fuel (off + entrySize)
    else none

/-- `remove_entry_raw`: the new block, and whether an entry was removed. -/
def removeEntryRaw (buf : Block) (size : Nat) (target : UInt32) : Block × Bool :=
  match removeSlot buf (min size 4096) target 513 0 with
  | some off => (buf.splice off 4 fun _ => 0, true)
  | none => (buf, false)

/-- Number of blocks needed for `size` bytes. -/
def blocksFor (size : Nat) : Nat := (size + 4096 - 1) / 4096

/-- The loop of `lookup_in_dir`. -/
def lookupFrom (dir : Inode) (name : Name) : List Nat → FsM (Option UInt32)
  | [] => pure none
  | logical :: rest => do
      let (phys, _) ← inodeGetBlock dir logical
      if phys = 0 then lookupFrom dir name rest
      else do
        let buf ← readBlock phys
        match findEntry buf 4096 name with
        | some id => pure (some id)
        | none => lookupFrom dir name rest

/-- `lookup_in_dir`. -/
def lookupInDir (dir : Inode) (name : Name) : FsM (Option UInt32) :=
  lookupFrom dir name (List.range (blocksFor dir.size.toNat))

/-- The loop of `dir_add_entry` over the blocks the directory already has:
whether the entry found room. -/
def addToExisting (parent : Inode) (newId : UInt32) (name : Name) : List Nat → FsM Bool
  | [] => pure false
  | logical :: rest => do
      let (phys, _) ← inodeGetBlock parent logical
      if phys = 0 then addToExisting parent newId name rest
      else do
        let buf ← readBlock phys
        match writeEntryRaw buf newId name with
        | .ok buf' => do
            writeBlock phys buf'
            pure true
        | .error _ => addToExisting parent newId name rest

/-- `dir_add_entry`. -/
def dirAddEntry (parentId newId : UInt32) (name : Name) : FsM Unit := do
  let parent ← readInode parentId
  let newLogical := blocksFor parent.size.toNat
  let added ← addToExisting parent newId name (List.range newLogical)
  if added then pure ()
  else do
    let (newPhys, parent') ← inodeAllocBlock parent newLogical
    writeInode parentId { parent' with size := UInt32.ofNat ((newLogical + 1) * 4096) }
    match writeEntryRaw Image.zero newId name with
    | .ok buf => writeBlock newPhys buf
    | .error e => err e

/-- The bytes of `"."` and `".."`. -/
def dotName : Name := [46]
def dotDotName : Name := [46, 46]

def writeEntryOrKeep (buf : Block) (target : UInt32) (name : Name) : Block :=
  match writeEntryRaw buf target name with
  | .ok buf' => buf'
  | .error _ => buf

/-- `init_dir_block`. -/
def initDirBlock (newId parentId : UInt32) (now : UInt32) : FsM UInt32 := do
  let newData ← allocDataBlock
  let x ← readInode newId
  writeInode newId { x with
    blocks := Function.update x.blocks 0 newData
    size := 4096
    mtime := now
    ctime := now
    atime := now }
  let buf := writeEntryOrKeep (writeEntryOrKeep Image.zero newId dotName) parentId dotDotName
  writeBlock newData buf
  pure newData

end ZiqaKernel
