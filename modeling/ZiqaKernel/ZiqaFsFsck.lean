/-
The consistency check (`fs/ziqafs/fsck.rs`).  It looks at 31 inode slots, but the table
has room for 29 of them behind slot 0: on every volume that `format` has made, the check
leaves the buffer of the inode table.
-/
import ZiqaKernel.ZiqaFsRuns

namespace ZiqaKernel

open Fallible

/-- `FsckResult`. -/
structure FsckResult where
  ok : Bool
  errors : UInt32
  leakedBlocks : UInt32
  leakedInodes : UInt32
deriving DecidableEq

/-- `reachable[b / 8] |= 1 << (b % 8)`; an index past the buffer panics. -/
def markReachable (reachable : Block) (b : UInt32) : FsM Block :=
  if b.toNat / 8 < 4096 then pure (setBitmapBit reachable b.toNat) else faulted

def markIfSet (reachable : Block) (b : UInt32) : FsM Block :=
  if b ≠ 0 then markReachable reachable b else pure reachable

def markLogical (x : Inode) (reachable : Block) (logical : Nat) : FsM Block := do
  match ← okOrNone (inodeGetBlock x logical) with
  | some (phys, _) => markIfSet reachable phys
  | none => pure reachable

/-- One round of the loop over the inodes: the blocks marked so far and the number of
live inodes. -/
def fsckInode (found : Block × UInt32) (id : Nat) : FsM (Block × UInt32) := do
  match ← okOrNone (readInode (UInt32.ofNat id)) with
  | none => pure found
  | some x =>
    if x.mode = 0 then pure found
    else do
      let reachable ← (List.range (blocksFor x.size.toNat)).foldlM (markLogical x) found.1
      let reachable ← markIfSet reachable x.indirect
      let reachable ← markIfSet reachable x.doubleIndirect
      pure (reachable, found.2 + 1)

/-- `zig_bitmap_count_leaked`; it reads the bits through raw pointers. -/
def bitmapCountLeaked (bitmap reachable : Block) (start stop : Nat) : FsM UInt32 :=
  if start < stop ∧ 32768 < stop then faulted
  else pure (UInt32.ofNat ((List.range' start (stop - start)).countP fun i =>
    bitSet bitmap i && !bitSet reachable i))

/-- `i32::unsigned_abs` of a difference of two counters. -/
def absDiff (a b : UInt32) : UInt32 :=
  if (a - b).toNat < 2 ^ 31 then a - b else b - a

/-- The answer of `fsck` when it cannot start. -/
def fsckRefused : FsckResult where
  ok := false
  errors := 1
  leakedBlocks := 0
  leakedInodes := 0

/-- The end of `fsck`. -/
def fsckReport (sb : Superblock) (leakedBlocks live : UInt32) : FsckResult :=
  let expectedFree := inodeCount - 1 - live
  let leakedInodes := if sb.freeInodes ≠ expectedFree then absDiff sb.freeInodes expectedFree
    else 0
  let errors := leakedBlocks + if sb.freeInodes ≠ expectedFree then 1 else 0
  { ok := errors == 0, errors, leakedBlocks, leakedInodes }

/-- `fsck`. -/
def fsck : FsM FsckResult := do
  let sb ← gets ZiqaFs.sb
  if sb.magic ≠ ziqaMagic then pure fsckRefused
  else do
    match ← okOrNone (readBlock bitmapBlock) with
    | none => pure fsckRefused
    | some bitmap => do
        let metadata ← (List.range sb.firstDataBlock.toNat).foldlM
          (fun reachable b => markReachable reachable (UInt32.ofNat b)) Image.zero
        let (reachable, live) ← (List.range' 1 31).foldlM fsckInode (metadata, 0)
        let leaked ← bitmapCountLeaked bitmap reachable sb.firstDataBlock.toNat sb.totalBlocks.toNat
        pure (fsckReport sb leaked live)

/-- The data blocks that are marked in the bitmap and that no readable inode names. -/
def leakedSet (fs : ZiqaFs) : Set UInt32 :=
  { b | InUse fs.device b ∧ b.toNat < fs.sb.totalBlocks.toNat ∧
    ∀ p, refs pairLayout fs.device (liveInode fs.device) p ≠ b }

/-- What is expected of `fsck`: it comes to an end, finds no errors and counts the leaked
blocks. -/
def FsckCorrect (fs : ZiqaFs) : Prop :=
  ∃ r fs', fsck.run fs = (.ok r, fs') ∧ r.errors = 0 ∧ r.leakedBlocks.toNat = (leakedSet fs).ncard

/-! The size of the device -/

def sectors (fs : ZiqaFs) : Nat := fs.device.totalSectors

section

variable (b : UInt32)

theorem readBlock_sectors : Keeps sectors (readBlock b) :=
  .of_readOnly (.of_run (readBlock_run b))

theorem writeBlock_sectors (buf : Block) : Keeps sectors (writeBlock b buf) := by
  intro s
  rw [run_writeBlock]
  split <;> rfl

theorem modify_sectors {f : ZiqaFs → ZiqaFs} (h : ∀ s, (f s).device = s.device) :
    Keeps sectors (modify f : FsM Unit) :=
  fun s => congrArg Disk.totalSectors (h s)

variable (x : Inode)

theorem inodeGetBlock_sectors (l : Nat) : Keeps sectors (inodeGetBlock x l) :=
  .of_readOnly (.of_run (inodeGetBlock_run x l))

variable (id : UInt32)

theorem readInode_sectors : Keeps sectors (readInode id) :=
  .of_readOnly (.of_run (readInode_run id))

theorem allocDataBlock_sectors : Keeps sectors allocDataBlock := by
  refine .bind (readBlock_sectors _) fun bitmap => .bind (.gets _) fun sb => ?_
  cases bitmapFindClear bitmap sb.firstDataBlock.toNat with
  | none => exact .fail _
  | some i =>
    refine .ite (.bind (writeBlock_sectors _ _) fun _ => ?_) (.fail _)
    refine .bind (writeBlock_sectors _ _) fun _ => ?_
    exact .bind (modify_sectors fun _ => rfl) fun _ => .pure _

theorem freeDataBlock_sectors : Keeps sectors (freeDataBlock b) := by
  refine .bind (.gets _) fun sb => .ite (.fail _) ?_
  refine .bind (readBlock_sectors _) fun bitmap => .ite ?_ (.fail _)
  exact .bind (writeBlock_sectors _ _) fun _ => modify_sectors fun _ => rfl

theorem flushSuperblock_sectors : Keeps sectors flushSuperblock :=
  .bind (.gets _) fun _ => writeBlock_sectors _ _

theorem writeInode_sectors (x : Inode) : Keeps sectors (writeInode id x) := by
  refine .ite (.fail _) (.bind (readBlock_sectors _) fun table => ?_)
  exact .ite (writeBlock_sectors _ _) (.fail _)

theorem allocInode_sectors (mode : UInt16) (now : UInt32) :
    Keeps sectors (allocInode mode now) := by
  refine .bind (readBlock_sectors _) fun table => .bind (.ofOption _ _) fun i => ?_
  refine .ite (.bind (writeBlock_sectors _ _) fun _ => ?_) (.fail _)
  exact .bind (modify_sectors fun _ => rfl) fun _ => .pure _

theorem freeInode_sectors : Keeps sectors (freeInode id) := by
  refine .ite (.fail _) (.bind (readBlock_sectors _) fun table => ?_)
  refine .ite (.bind (writeBlock_sectors _ _) fun _ => ?_) (.fail _)
  exact modify_sectors fun _ => rfl

theorem orAlloc_sectors (recorded : UInt32) : Keeps sectors (orAlloc recorded) :=
  .ite allocDataBlock_sectors (.pure _)

theorem inodeSetBlock_sectors (l : Nat) (new sum : UInt32) :
    Keeps sectors (inodeSetBlock x l new sum) := by
  unfold inodeSetBlock
  by_cases hdirect : l < 10
  · rw [dif_pos hdirect]
    exact .pure _
  · rw [dif_neg hdirect]
    refine .ite ?_ (.ite ?_ (.fail _))
    · refine .bind (orAlloc_sectors _) fun c => .bind (readBlock_sectors _) fun buf => ?_
      exact .bind (writeBlock_sectors _ _) fun _ => .pure _
    · refine .bind (orAlloc_sectors _) fun c => .bind (readBlock_sectors _) fun buf => ?_
      refine .bind (orAlloc_sectors _) fun q => .bind (readBlock_sectors _) fun buf2 => ?_
      refine .bind (writeBlock_sectors _ _) fun _ => ?_
      exact .bind (writeBlock_sectors _ _) fun _ => .pure _

theorem allocWord_sectors (buf : Block) (w : Nat) :
    Keeps sectors (allocWord b buf w) := by
  refine .ite (.bind allocDataBlock_sectors fun fresh => ?_) (.pure _)
  exact .bind (writeBlock_sectors _ _) fun _ => .pure _

theorem inodeAllocBlock_sectors (l : Nat) : Keeps sectors (inodeAllocBlock x l) := by
  unfold inodeAllocBlock
  by_cases hdirect : l < 10
  · rw [dif_pos hdirect]
    exact .bind (orAlloc_sectors _) fun _ => .pure _
  · rw [dif_neg hdirect]
    refine .ite ?_ (.ite ?_ (.fail _))
    · refine .bind (orAlloc_sectors _) fun c => .bind (readBlock_sectors _) fun buf => ?_
      exact .bind (allocWord_sectors _ _ _) fun _ => .pure _
    · refine .bind (orAlloc_sectors _) fun c => .bind (readBlock_sectors _) fun buf => ?_
      refine .bind (allocWord_sectors _ _ _) fun q => .bind (readBlock_sectors _) fun b2 => ?_
      exact .bind (allocWord_sectors _ _ _) fun _ => .pure _

theorem freeInodeBlocks_sectors : Keeps sectors (freeInodeBlocks x) := by
  have hfree : ∀ b, Keeps sectors (freeIfSet b) := fun b =>
    .ite (freeDataBlock_sectors b) (.pure _)
  have hwords : ∀ buf, Keeps sectors (freeWords buf) := fun buf =>
    .forM (fun w => hfree _) _
  refine .bind (.forM (fun i => hfree _) _) fun _ => .bind (.ite ?_ (.pure _)) fun _ =>
    .ite ?_ (.pure _)
  · exact .bind (readBlock_sectors _) fun buf => .bind (hwords buf) fun _ =>
      freeDataBlock_sectors _
  · refine .bind (readBlock_sectors _) fun buf => .bind (.forM (fun w => ?_) _) fun _ =>
      freeDataBlock_sectors _
    refine .ite (.bind (readBlock_sectors _) fun buf2 => ?_) (.pure _)
    exact .bind (hwords buf2) fun _ => freeDataBlock_sectors _

theorem lookupInDir_sectors (dir : Inode) (name : Name) : Keeps sectors (lookupInDir dir name) := by
  unfold lookupInDir
  generalize List.range (blocksFor dir.size.toNat) = logicals
  induction logicals with
  | nil => exact .pure _
  | cons l rest ih =>
    refine .bind (inodeGetBlock_sectors _ _) fun p => .ite ih ?_
    refine .bind (readBlock_sectors _) fun buf => ?_
    cases findEntry buf 4096 name with
    | none => exact ih
    | some t => exact .pure _

theorem addToExisting_sectors (parent : Inode) (newId : UInt32) (name : Name)
    (logicals : List Nat) : Keeps sectors (addToExisting parent newId name logicals) := by
  induction logicals with
  | nil => exact .pure _
  | cons l rest ih =>
    refine .bind (inodeGetBlock_sectors _ _) fun p => .ite ih ?_
    refine .bind (readBlock_sectors _) fun buf => ?_
    cases writeEntryRaw buf newId name with
    | error e => exact ih
    | ok buf' => exact .bind (writeBlock_sectors _ _) fun _ => .pure _

theorem dirAddEntry_sectors (parentId newId : UInt32) (name : Name) :
    Keeps sectors (dirAddEntry parentId newId name) := by
  refine .bind (readInode_sectors _) fun parent => ?_
  refine .bind (addToExisting_sectors _ _ _ _) fun added => .ite (.pure _) ?_
  refine .bind (inodeAllocBlock_sectors _ _) fun r => ?_
  refine .bind (writeInode_sectors _ _) fun _ => ?_
  cases writeEntryRaw Image.zero newId name with
  | error e => exact .fail _
  | ok buf => exact writeBlock_sectors _ _

theorem checkNewEntry_sectors (parentId : UInt32) (name : Name) :
    Keeps sectors (checkNewEntry parentId name) := by
  refine .ite (.fail _) (.bind (readInode_sectors _) fun parent => .ite (.fail _) ?_)
  exact .bind (lookupInDir_sectors _ _) fun found => .ite (.fail _) (.pure _)

theorem writeRound_sectors (pos : Nat) (rest : List UInt8) :
    Keeps sectors (writeRound x pos rest) := by
  refine .bind (inodeGetBlock_sectors _ _) fun p => ?_
  refine .bind (.ite (readBlock_sectors _) (.pure _)) fun old => ?_
  refine .bind allocDataBlock_sectors fun new => .bind (writeBlock_sectors _ _) fun _ => ?_
  refine .bind (inodeSetBlock_sectors _ _ _ _) fun x' => ?_
  exact .ite (.bind (freeDataBlock_sectors _) fun _ => .pure _) (.pure _)

theorem writeLoop_sectors (fuel : Nat) (x : Inode) (pos : Nat) (rest : List UInt8) :
    Keeps sectors (writeLoop fuel x pos rest) := by
  induction fuel generalizing x pos rest with
  | zero => exact .pure _
  | succ fuel ih =>
    exact .ite (.pure _) (.bind (writeRound_sectors _ _ _) fun x' => ih _ _ _)

theorem truncateRound_sectors (l : Nat) : Keeps sectors (truncateRound x l) := by
  refine .bind (inodeGetBlock_sectors _ _) fun p => .ite ?_ (.pure _)
  refine .bind (readBlock_sectors _) fun buf => .ite (writeBlock_sectors _ _) ?_
  refine .ite (.bind (readBlock_sectors _) fun words => ?_) (.pure _)
  exact writeBlock_sectors _ _

theorem zeroTail_sectors (newSize : Nat) : Keeps sectors (zeroTail x newSize) := by
  refine .ite (.bind (inodeGetBlock_sectors _ _) fun p => .ite ?_ (.pure _)) (.pure _)
  exact .bind (readBlock_sectors _) fun buf => writeBlock_sectors _ _

theorem initDirBlock_sectors (newId parentId now : UInt32) :
    Keeps sectors (initDirBlock newId parentId now) := by
  refine .bind allocDataBlock_sectors fun b => .bind (readInode_sectors _) fun x => ?_
  refine .bind (writeInode_sectors _ _) fun _ => ?_
  exact .bind (writeBlock_sectors _ _) fun _ => .pure _

theorem journalCommit_sectors (op : UInt8) (block : UInt32) (payload : List UInt8) :
    Keeps sectors (journalCommit op block payload) :=
  .bind (readBlock_sectors _) fun _ => .ite (.pure _) (writeBlock_sectors _ _)

theorem cachedBlock_sectors (scan : UnlinkScan) (b : UInt32) : Keeps sectors (cachedBlock scan b) :=
  .ite (readBlock_sectors _) (.pure _)

theorem unlinkScanRound_sectors (parent : Inode) (name : Name) (scan : UnlinkScan) (l : Nat) :
    Keeps sectors (unlinkScanRound parent name scan l) := by
  refine .bind (inodeGetBlock_sectors _ _) fun p => .ite (.pure _) ?_
  refine .bind (cachedBlock_sectors _ _) fun buf => ?_
  cases findEntry buf 4096 name with
  | none => exact .pure _
  | some t => exact .pure _

theorem renameRemove_sectors (dir : Inode) (target : UInt32) (logicals : List Nat) :
    Keeps sectors (renameRemove dir target logicals) := by
  induction logicals with
  | nil => exact .pure _
  | cons l rest ih =>
    refine .bind (inodeGetBlock_sectors _ _) fun p => .ite ih ?_
    exact .bind (readBlock_sectors _) fun buf => .ite (writeBlock_sectors _ _) ih

end

theorem linkCommit_sectors (now src dst : UInt32) (name : Name) :
    Keeps sectors (linkCommit now src dst name) := by
  refine .ite (.fail _) (.bind (readInode_sectors _) fun x => .ite (.fail _) ?_)
  refine .bind (readInode_sectors _) fun dir => ?_
  refine .bind (lookupInDir_sectors _ _) fun found => .ite (.fail _) ?_
  exact .bind (.attempt (journalCommit_sectors _ _ _)) fun _ => .pure _

theorem Call.exec_sectors (c : Call) : Keeps sectors c.exec := by
  cases c with
  | createFile now parent name =>
    refine .bind (.bind (checkNewEntry_sectors _ _) fun _ => ?_) fun _ => .pure _
    refine .bind (allocInode_sectors _ _) fun newId => ?_
    refine .bind (dirAddEntry_sectors _ _ _) fun _ => ?_
    exact .bind flushSuperblock_sectors fun _ => .pure _
  | createDir now now' parent name =>
    refine .bind (.bind (checkNewEntry_sectors _ _) fun _ => ?_) fun _ => .pure _
    refine .bind (allocInode_sectors _ _) fun newId => ?_
    refine .bind (initDirBlock_sectors _ _ _) fun _ => ?_
    refine .bind (dirAddEntry_sectors _ _ _) fun _ => ?_
    exact .bind flushSuperblock_sectors fun _ => .pure _
  | writeFile now id offset buf =>
    refine .bind (.bind (readInode_sectors _) fun x => .ite (.fail _) ?_) fun _ => .pure _
    refine .bind (writeLoop_sectors _ _ _ _) fun x' => ?_
    refine .bind (writeInode_sectors _ _) fun _ => ?_
    exact .bind flushSuperblock_sectors fun _ => .pure _
  | truncate now id newSize =>
    refine .bind (readInode_sectors _) fun x => .ite (.fail _) ?_
    refine .bind (.forM (fun l => truncateRound_sectors _ _) _) fun _ => ?_
    refine .bind (zeroTail_sectors _ _) fun _ => .bind (writeInode_sectors _ _) fun _ => ?_
    exact flushSuperblock_sectors
  | link now src dst name =>
    refine .bind (linkCommit_sectors _ _ _ _) fun x' => ?_
    exact .bind (writeInode_sectors _ _) fun _ => dirAddEntry_sectors _ _ _
  | rename src name dst newName =>
    refine .ite (.fail _) (.bind (readInode_sectors _) fun dir => ?_)
    refine .bind (lookupInDir_sectors _ _) fun found => .bind (.ofOption _ _) fun t => ?_
    exact .bind (renameRemove_sectors _ _ _) fun _ => dirAddEntry_sectors _ _ _
  | unlink now parent name =>
    refine .bind (readInode_sectors _) fun dir => ?_
    refine .bind (.foldlM (unlinkScanRound_sectors _ _) _ _) fun scan => ?_
    refine .bind (.ofOption _ _) fun t => .bind (readInode_sectors _) fun x => ?_
    refine .bind (cachedBlock_sectors _ _) fun buf => ?_
    refine .bind (writeBlock_sectors _ _) fun _ => ?_
    refine .bind (.ite (.bind (freeInodeBlocks_sectors _) fun _ => freeInode_sectors _)
      (writeInode_sectors _ _)) fun _ => ?_
    exact flushSuperblock_sectors

theorem Reached.inRange {allowed : Call → ZiqaFs → Prop} {fs : ZiqaFs}
    (h : Reached allowed fs) : fs.device.InRange inodeTableBlock := by
  induction h with
  | format h => exact (format_sound h).healthy.inRange _ (Or.inl (by decide))
  | @call fs fs' c r _ _ hrun _ ih =>
    have hsize := c.exec_sectors fs
    rw [hrun] at hsize
    exact (Disk.inRange_congr hsize _).mpr ih

/-! The check -/

section

variable {n : Nat} {fs : ZiqaFs}

theorem okOrNone_sectors {α : Type} {x : FsM α} (h : Keeps sectors x) :
    Keeps sectors (okOrNone x) := by
  intro s
  have hstate := h s
  rcases hrun : x.run s with ⟨r, s'⟩
  rw [hrun] at hstate
  simp only [okOrNone, hrun]
  rcases r with (e | _) | a <;> exact hstate

theorem markIfSet_sectors (reachable : Block) (b : UInt32) :
    Keeps sectors (markIfSet reachable b) :=
  .ite (.ite (.pure _) (.fail _)) (.pure _)

variable (found : Block × UInt32)

theorem fsckInode_sectors (id : Nat) :
    Keeps sectors (fsckInode found id) := by
  refine .bind (okOrNone_sectors (readInode_sectors _)) fun o => ?_
  cases o with
  | none => exact .pure _
  | some x =>
    refine .ite (.pure _) (.bind (.foldlM (fun reachable l => ?_) _ _) fun _ => ?_)
    · refine .bind (okOrNone_sectors (inodeGetBlock_sectors _ _)) fun p => ?_
      cases p with
      | none => exact .pure _
      | some q => exact markIfSet_sectors _ _
    · refine .bind (markIfSet_sectors _ _) fun _ => ?_
      exact .bind (markIfSet_sectors _ _) fun _ => .pure _

theorem fsckInode_thirty (hrange : fs.device.InRange inodeTableBlock) :
    (fsckInode found 30).run fs = (.error .fault, fs) := by
  have hread : (readInode 30).run fs = (.error .fault, fs) := by
    rw [readInode_run, loadInode, if_neg (by decide), Disk.load, if_pos hrange]
    dsimp only
    rw [if_neg (by decide)]
  have hstop : (okOrNone (readInode (UInt32.ofNat 30))).run fs = (.error .fault, fs) := by
    change (okOrNone (readInode 30)).run fs = _
    simp only [okOrNone, hread]
  rw [fsckInode, run_bind_of_error hstop]

theorem fsckLoop_stops (hn : 32 ≤ n) :
    Spec (fun s => sectors s = n) ((List.range' 1 31).foldlM fsckInode found)
      (fun _ _ => False) (fun _ _ => True) := by
  have hmem : 30 ∈ List.range' 1 31 := by decide
  refine Spec.foldlM_stops hmem (fun found' id => ?_) (fun found' => ?_) found
  · exact ((fsckInode_sectors found' id).spec n).consequence (fun _ h => h)
      (fun _ _ h => h) fun _ _ _ => trivial
  · refine Spec.pointwise fun s hs =>
      Spec.of_run_error (fsckInode_thirty found' ?_) trivial
    change 8 * 3 + 8 ≤ sectors s
    omega

theorem fsck_run_ok {r : FsckResult} {fs' : ZiqaFs}
    (hrange : fs.device.InRange inodeTableBlock) (h : fsck.run fs = (.ok r, fs')) :
    r = fsckRefused := by
  have hn : 32 ≤ sectors fs := hrange
  have hspec : Spec (fun s => sectors s = sectors fs) fsck (fun r _ => r = fsckRefused)
      (fun _ _ => True) := by
    refine ((Keeps.gets _).spec _).andThen (fun _ _ _ => trivial) fun sb => ?_
    refine Spec.ite (fun _ => Spec.pure fun _ _ => rfl) fun _ => ?_
    refine ((okOrNone_sectors (readBlock_sectors _)).spec _).andThen
      (fun _ _ _ => trivial) fun o => ?_
    cases o with
    | none => exact Spec.pure fun _ _ => rfl
    | some bitmap =>
      refine ((Keeps.foldlM (fun reachable b => .ite (.pure _) (.fail _)) _ _).spec
        _).andThen (fun _ _ _ => trivial) fun metadata => ?_
      exact (fsckLoop_stops _ hn).bind fun _ =>
        ⟨fun _ _ _ h => h.elim, fun _ _ _ h => h.elim⟩
  exact hspec.ok fs r fs' rfl h

end

/-- On no volume that is reached from `format` does `fsck` come to its end and find the
volume in order. -/
theorem fsck_incorrect (allowed : Call → ZiqaFs → Prop) (fs : ZiqaFs)
    (h : Reached allowed fs) : ¬ FsckCorrect fs := by
  rintro ⟨r, fs', hrun, herrors, -⟩
  rw [fsck_run_ok h.inRange hrun] at herrors
  exact absurd herrors (by decide)

theorem fsck_incorrect_formatted : ¬ FsckCorrect volumeFormatted := by
  have hformat : (format 0 emptyDevice).1 = .ok () := by decide +kernel
  have hreached : Reached (fun _ _ => True) volumeFormatted := by
    unfold volumeFormatted
    exact reached_format hformat
  exact fsck_incorrect _ volumeFormatted hreached

/-- The check of a volume right after `format`. -/
theorem fsck_volumeFormatted :
    (format 0 emptyDevice).1 = .ok () ∧ (fsck.run volumeFormatted).1 = .error .fault := by
  decide +kernel

end ZiqaKernel
