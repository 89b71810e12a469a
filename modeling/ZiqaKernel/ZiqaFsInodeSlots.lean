/-
The inode table as an array of slots: a slot that is written reads back and disturbs no
other, as far as the slots lie inside the table block, and `alloc_inode` takes slots that
nobody uses, as far as no stored checksum ends in a zero byte.
-/
import ZiqaKernel.StepRuns
import ZiqaKernel.ZiqaFsInodeTable

namespace ZiqaKernel

open Fallible Image Function

variable {fs fs' : ZiqaFs} {id j : UInt32} {x : Inode}

theorem slotFits_iff : SlotFits id ↔ id.toNat < 30 := by
  unfold SlotFits
  omega

theorem run_readTable (hrange : fs.device.InRange inodeTableBlock) :
    (readBlock inodeTableBlock).run fs = (.ok (fs.device.block inodeTableBlock), fs) := by
  rw [run_readBlock, if_pos hrange]

theorem run_writeTable (hrange : fs.device.InRange inodeTableBlock) (table : Block) :
    (writeBlock inodeTableBlock table).run fs =
      (.ok (), { fs with device := fs.device.setBlock inodeTableBlock table }) := by
  rw [run_writeBlock, if_pos hrange]

theorem writeInode_run_ite (hrange : fs.device.InRange inodeTableBlock) (hid : id < inodeCount)
    (x : Inode) :
    (writeInode id x).run fs = if SlotFits id then
        (.ok (), { fs with
          device := fs.device.setBlock inodeTableBlock
            (setSlot (fs.device.block inodeTableBlock) id x.stamped.toBytes) })
      else (.error .fault, fs) := by
  rw [writeInode, if_neg (UInt32.not_le.mpr hid), run_bind_of_ok (run_readTable hrange)]
  split
  · exact run_writeTable hrange _
  · rfl

/-- Writing the slot stays inside the table, and if it succeeds then the slot holds the
inode with its checksum, and the other slots hold what they held. -/
structure SlotWritten (fs : ZiqaFs) (id : UInt32) (x : Inode) : Prop where
  inside : ((writeInode id x).run fs).1 ≠ .error .fault
  stored : ∀ fs', (writeInode id x).run fs = (.ok (), fs') →
    (readInode id).run fs' = (.ok x.stamped, fs')
  others : ∀ fs', (writeInode id x).run fs = (.ok (), fs') →
    ∀ j, j ≠ id → ((readInode j).run fs').1 = ((readInode j).run fs).1

theorem slotWritten_iff (fs : ZiqaFs) (id : UInt32) (x : Inode) (hid : id < inodeCount) :
    SlotWritten fs id x ↔ (fs.device.InRange inodeTableBlock → id.toNat < 30) := by
  constructor
  · intro h hrange
    by_contra hlarge
    apply h.inside
    rw [writeInode_run_ite hrange hid, if_neg (mt slotFits_iff.mp hlarge)]
  · intro hsmall
    refine ⟨fun hfault => ?_, fun fs' hwrite => ?_, fun fs' hwrite j hj => ?_⟩
    · by_cases hrange : fs.device.InRange inodeTableBlock
      · rw [writeInode_run_ite hrange hid, if_pos (slotFits_iff.mpr (hsmall hrange))] at hfault
        cases hfault
      · have hread : (readBlock inodeTableBlock).run fs = (.error (.error .outOfBounds), fs) := by
          rw [run_readBlock, if_neg hrange]
        rw [writeInode, if_neg (UInt32.not_le.mpr hid), run_bind_of_error hread] at hfault
        cases hfault
    · obtain ⟨hlow, hfit, hrange, rfl⟩ := writeInode_ok hwrite
      rw [readInode_run]
      congr 1
      exact loadInode_self hlow hfit hrange ⟨_, Disk.block_setBlock_self _ _ _⟩
    · obtain ⟨-, -, -, rfl⟩ := writeInode_ok hwrite
      rw [readInode_run, readInode_run]
      exact loadInode_ne hj rfl (Disk.block_setBlock_self _ _ _)

def emptyTable : ZiqaFs where
  device := { totalSectors := 40, data := fun _ => zero }
  sb := initialSuperblock { totalSectors := 40, data := fun _ => zero }

theorem slotWritten_emptyTable :
    (29 : UInt32) < inodeCount ∧ SlotWritten emptyTable 29 (freshInode inodeModeFile 0) :=
  ⟨by decide, (slotWritten_iff emptyTable 29 _ (by decide)).mpr fun _ => by decide⟩

/-- The slot of inode 30 ends behind the block. -/
theorem not_slotWritten_thirty : ¬ ∀ fs id x, id < inodeCount → SlotWritten fs id x := by
  intro h
  apply (h emptyTable 30 (freshInode inodeModeFile 0) (by decide)).inside
  rw [writeInode_run_ite (by decide) (by decide), if_neg (by decide)]

/-! Taking and freeing slots -/

/-- A volume, and the inode numbers that have been allocated and not freed since. -/
structure SlotHistory where
  volume : ZiqaFs
  taken : UInt32 → Bool

inductive SlotCall where
  | write (id : UInt32) (x : Inode)
  | alloc (mode : UInt16) (now : UInt32)
  | free (id : UInt32)

namespace SlotHistory

def step : SlotCall → SlotHistory → SlotHistory
  | .write id x, h => { h with volume := ((writeInode id x).run h.volume).2 }
  | .alloc mode now, h =>
    match (allocInode mode now).run h.volume with
    | (.ok id, fs) => ⟨fs, update h.taken id true⟩
    | (.error _, fs) => { h with volume := fs }
  | .free id, h =>
    match (freeInode id).run h.volume with
    | (.ok (), fs) => ⟨fs, update h.taken id false⟩
    | (.error _, fs) => { h with volume := fs }

/-- `alloc_inode` returns a number that is not taken, and fails only if all are. -/
def AllocatesFree (c : SlotCall) (h : SlotHistory) : Prop :=
  match c with
  | .alloc mode now =>
    match (allocInode mode now).run h.volume with
    | (.ok id, _) => h.taken id = false
    | (.error _, _) => ∀ id < inodeCount, h.taken id = true
  | _ => True

theorem allocatesFree_of_run (h : SlotHistory) {mode : UInt16} {now : UInt32}
    (hrun : (allocInode mode now).run h.volume = (.ok id, fs')) :
    AllocatesFree (.alloc mode now) h ↔ h.taken id = false := by
  rw [AllocatesFree, hrun]

def MarksSlot (x : Inode) : Prop := le32 (calculateInodeChecksum x) 0 ≠ 0

instance (x : Inode) : Decidable (MarksSlot x) := inferInstanceAs (Decidable (_ ≠ _))

/-- The condition on a call: only inodes that are taken are written, checksums do not end
in a zero byte, inodes 30 and 31 are not freed, and a slot that can be taken is left. -/
def Prudent (c : SlotCall) (h : SlotHistory) : Prop :=
  match c with
  | .write id x => h.taken id = true ∧ MarksSlot x
  | .alloc mode now => MarksSlot (freshInode mode now) ∧
      ∃ id, 1 ≤ id.toNat ∧ id.toNat < 30 ∧ h.taken id = false
  | .free id => id.toNat < 30 ∨ inodeCount ≤ id

structure Truthful (h : SlotHistory) : Prop where
  table : h.volume.device.InRange inodeTableBlock
  low : ∀ id, h.taken id = true → id.toNat < 30
  marks : ∀ id, id.toNat < 30 →
    (h.taken id = false ↔ (h.volume.device.block inodeTableBlock).get (id.toNat * 136) = 0)

variable {h : SlotHistory}

theorem get_setSlot (table : Block) (hid : id.toNat < 30) (bytes : Nat → UInt8) (j : UInt32) :
    (setSlot table id bytes).get (j.toNat * 136) =
      if j = id then bytes 0 else table.get (j.toNat * 136) := by
  split
  · next heq =>
    rw [heq]
    exact get_splice_inside table bytes (k := 0) (by omega) (by omega)
  · next hne =>
    have hnat : j.toNat ≠ id.toNat := fun heq => hne (UInt32.toNat_inj.mp heq)
    exact get_splice_outside _ _ (by omega)

theorem Truthful.overwritten {bytes : Nat → UInt8} {v : Bool} (ht : h.Truthful) (sb : Superblock)
    (hid : id.toNat < 30) (hbytes : v = false ↔ bytes 0 = 0) :
    Truthful ⟨⟨h.volume.device.setBlock inodeTableBlock
      (setSlot (h.volume.device.block inodeTableBlock) id bytes), sb⟩,
      update h.taken id v⟩ where
  table := ht.table
  low j hj := by
    by_cases heq : j = id
    · exact heq ▸ hid
    · dsimp only at hj
      rw [update_of_ne heq] at hj
      exact ht.low j hj
  marks j hj := by
    dsimp only
    rw [Disk.block_setBlock_self, get_setSlot _ hid]
    by_cases heq : j = id
    · rw [heq, update_self, if_pos rfl]
      exact hbytes
    · rw [update_of_ne heq, if_neg heq]
      exact ht.marks j hj

theorem Truthful.write (ht : h.Truthful) (hid : h.taken id = true) (hx : MarksSlot x) :
    (step (.write id x) h).Truthful := by
  have hlow := ht.low id hid
  have hcount : id < inodeCount := UInt32.lt_iff_toNat_lt.mpr (Nat.lt_trans hlow (by decide))
  have hmarked : true = false ↔ x.stamped.toBytes 0 = 0 := iff_of_false Bool.noConfusion hx
  have hnext := ht.overwritten h.volume.sb hlow hmarked
  rw [update_eq_self_iff.mpr hid.symm] at hnext
  rw [step, writeInode_run_ite ht.table hcount, if_pos (slotFits_iff.mpr hlow)]
  exact hnext

theorem Truthful.free (ht : h.Truthful) (hid : id.toNat < 30 ∨ inodeCount ≤ id) :
    (step (.free id) h).Truthful := by
  rcases hid with hlow | hhigh
  · have hcount : ¬ id ≥ inodeCount :=
      UInt32.not_le.mpr (UInt32.lt_iff_toNat_lt.mpr (Nat.lt_trans hlow (by decide)))
    have hrun : (freeInode id).run h.volume = (.ok (), ⟨h.volume.device.setBlock inodeTableBlock
        (setSlot (h.volume.device.block inodeTableBlock) id fun _ => 0),
        { h.volume.sb with freeInodes := succ32 h.volume.sb.freeInodes }⟩) := by
      rw [freeInode, if_neg hcount, run_bind_of_ok (run_readTable ht.table),
        if_pos (slotFits_iff.mpr hlow), run_bind_of_ok (run_writeTable ht.table _)]
      rfl
    rw [step, hrun]
    exact ht.overwritten _ hlow (iff_of_true rfl rfl)
  · rw [step, freeInode, if_pos hhigh]
    exact ht

theorem allocInode_run (fs : ZiqaFs) (mode : UInt16) (now : UInt32)
    (hrange : fs.device.InRange inodeTableBlock) (hid : id.toNat < 30)
    (hfind : inodeFindFree (fs.device.block inodeTableBlock) inodeCount.toNat 136 1 =
      some id.toNat) :
    (allocInode mode now).run fs = (.ok id, ⟨fs.device.setBlock inodeTableBlock
      (setSlot (fs.device.block inodeTableBlock) id (freshInode mode now).stamped.toBytes),
      { fs.sb with freeInodes := pred32 fs.sb.freeInodes }⟩) := by
  rw [allocInode, run_bind_of_ok (run_readTable hrange),
    run_bind_of_ok (run_ofOption_eq_ok_iff.mpr ⟨hfind, rfl⟩)]
  dsimp only
  rw [UInt32.ofNat_toNat, if_pos (slotFits_iff.mpr hid),
    run_bind_of_ok (run_writeTable hrange _)]
  rfl

theorem Truthful.inodeFindFree_eq (ht : h.Truthful)
    (hleft : ∃ id, 1 ≤ id.toNat ∧ id.toNat < 30 ∧ h.taken id = false) :
    ∃ id : UInt32, id.toNat < 30 ∧ h.taken id = false ∧
      inodeFindFree (h.volume.device.block inodeTableBlock) inodeCount.toNat 136 1 =
        some id.toNat := by
  obtain ⟨k, hpos, hlow, hk⟩ := hleft
  have hzero := (ht.marks k hlow).mp hk
  obtain ⟨i, hfind⟩ : ∃ i, inodeFindFree (h.volume.device.block inodeTableBlock)
      inodeCount.toNat 136 1 = some i := by
    rw [← Option.isSome_iff_exists, inodeFindFree, List.find?_isSome]
    refine ⟨k.toNat, List.mem_range'_1.mpr ⟨hpos, ?_⟩, beq_iff_eq.mpr hzero⟩
    have hcount : inodeCount.toNat = 32 := rfl
    omega
  have hle : i ≤ k.toNat := by
    obtain ⟨-, -, hbefore⟩ := List.find?_range'_eq_some.mp hfind
    by_contra hlt
    have hset := hbefore k.toNat hpos (Nat.not_le.mp hlt)
    simp [hzero] at hset
  have hnat : (UInt32.ofNat i).toNat = i := by
    rw [UInt32.toNat_ofNat']
    omega
  obtain ⟨-, -, hi⟩ := inodeFindFree_some hfind
  refine ⟨UInt32.ofNat i, by omega, (ht.marks _ (by omega)).mpr ?_, ?_⟩
  · rwa [hnat]
  · rwa [hnat]

theorem Truthful.alloc (ht : h.Truthful) {mode : UInt16} {now : UInt32}
    (hfresh : MarksSlot (freshInode mode now))
    (hleft : ∃ id, 1 ≤ id.toNat ∧ id.toNat < 30 ∧ h.taken id = false) :
    (step (.alloc mode now) h).Truthful ∧ AllocatesFree (.alloc mode now) h := by
  obtain ⟨id, hlow, hid, hfind⟩ := ht.inodeFindFree_eq hleft
  have hrun := allocInode_run h.volume mode now ht.table hlow hfind
  refine ⟨?_, (allocatesFree_of_run h hrun).mpr hid⟩
  rw [step, hrun]
  exact ht.overwritten _ hlow (iff_of_false Bool.noConfusion hfresh)

theorem Truthful.step_prudent (ht : h.Truthful) (c : SlotCall) (hc : Prudent c h) :
    (step c h).Truthful ∧ AllocatesFree c h := by
  cases c with
  | write id x => exact ⟨ht.write hc.1 hc.2, trivial⟩
  | alloc mode now => exact ht.alloc hc.1 hc.2
  | free id => exact ⟨ht.free hc, trivial⟩

end SlotHistory

open SlotHistory

/-- From an empty table on, every prudent call of `alloc_inode` returns a number that is
not taken. -/
theorem allocatesFree_of_prudent (fs : ZiqaFs) (htable : fs.device.InRange inodeTableBlock)
    (hempty : fs.device.block inodeTableBlock = zero) (calls : List SlotCall)
    (hprudent : EachStep step Prudent calls ⟨fs, fun _ => false⟩) :
    EachStep step AllocatesFree calls ⟨fs, fun _ => false⟩ := by
  have hstart : Truthful ⟨fs, fun _ => false⟩ := by
    refine ⟨htable, fun _ h => absurd h Bool.false_ne_true, fun id _ => iff_of_true rfl ?_⟩
    rw [hempty]
    exact get_zero _
  exact eachStep_of_eachStep (fun c _ ht hc => ht.step_prudent c hc) hstart hprudent

theorem block_emptyTable (b : UInt32) : emptyTable.device.block b = zero := by
  refine join_part (by decide) rfl zero fun i _ => ext fun k hk => ?_
  rw [get_part _ hk, get_zero]
  exact get_zero k

theorem step_emptyTable (mode : UInt16) (now : UInt32) :
    step (.alloc mode now) ⟨emptyTable, fun _ => false⟩ =
      ⟨⟨emptyTable.device.setBlock inodeTableBlock
        (setSlot zero 1 (freshInode mode now).stamped.toBytes),
        { emptyTable.sb with freeInodes := pred32 emptyTable.sb.freeInodes }⟩,
        update (fun _ => false) 1 true⟩ := by
  have hfind : inodeFindFree (emptyTable.device.block inodeTableBlock) inodeCount.toNat 136 1 =
      some (1 : UInt32).toNat := by
    rw [block_emptyTable]
    decide +kernel
  rw [step, allocInode_run _ mode now (by decide) (by decide) hfind, block_emptyTable]

/-- Two files that are made when the kernel has just been started. -/
theorem allocatesFree_earlyFiles :
    EachStep step AllocatesFree [.alloc inodeModeFile 0, .alloc inodeModeFile 0]
      ⟨emptyTable, fun _ => false⟩ := by
  refine allocatesFree_of_prudent emptyTable (by decide) (block_emptyTable _) _
    ⟨⟨by decide +kernel, 1, by decide⟩, ⟨by decide +kernel, 2, by decide, by decide, ?_⟩, trivial⟩
  rw [step_emptyTable]
  decide

/-- The volume with one inode that has been made after 325 seconds. -/
def lateVolume : ZiqaFs where
  device := emptyTable.device.setBlock inodeTableBlock
    (setSlot zero 1 (freshInode inodeModeFile 325).stamped.toBytes)
  sb := { emptyTable.sb with freeInodes := pred32 emptyTable.sb.freeInodes }

theorem inodeFindFree_lateVolume :
    inodeFindFree (lateVolume.device.block inodeTableBlock) inodeCount.toNat 136 1 =
      some (1 : UInt32).toNat := by
  rw [lateVolume, Disk.block_setBlock_self]
  decide +kernel

/-- Two files that are made after 325 seconds get the same inode. -/
theorem lateFiles_collide :
    ¬ EachStep step AllocatesFree [.alloc inodeModeFile 325, .alloc inodeModeFile 325]
      ⟨emptyTable, fun _ => false⟩ := by
  have hrun := allocInode_run lateVolume inodeModeFile 325 (by decide) (by decide)
    inodeFindFree_lateVolume
  apply not_eachStep_of_second
  rw [step_emptyTable, ← lateVolume, allocatesFree_of_run ⟨lateVolume, _⟩ hrun]
  decide

end ZiqaKernel
