/-
Runs of the file system: the states that a freshly formatted volume can reach
through the public calls, whatever they return.
-/
import ZiqaKernel.ZiqaFsCalls
import ZiqaKernel.ZiqaFsRoundTrip
import ZiqaKernel.ZiqaFsUnlink
import ZiqaKernel.ZiqaFsWriteSafe

namespace ZiqaKernel

open Fallible

/-- The calls that change a volume, with the times that the source reads from
the timer. -/
inductive Call where
  | createFile (now parent : UInt32) (name : Name)
  | createDir (now now' parent : UInt32) (name : Name)
  | writeFile (now id : UInt32) (offset : Nat) (buf : List UInt8)
  | truncate (now id : UInt32) (newSize : Nat)
  | link (now src dst : UInt32) (name : Name)
  | rename (src : UInt32) (name : Name) (dst : UInt32) (newName : Name)
  | unlink (now parent : UInt32) (name : Name)

def Call.exec : Call → FsM Unit
  | .createFile now parent name =>
    ZiqaKernel.createFile now parent name >>= fun _ => pure ()
  | .createDir now now' parent name =>
    ZiqaKernel.createDir now now' parent name >>= fun _ => pure ()
  | .writeFile now id offset buf =>
    ZiqaKernel.writeFile now id offset buf >>= fun _ => pure ()
  | .truncate now id newSize => ZiqaKernel.truncate now id newSize
  | .link now src dst name => ZiqaKernel.link now src dst name
  | .rename src name dst newName => ZiqaKernel.rename src name dst newName
  | .unlink now parent name => ZiqaKernel.unlink now parent name

/-- The states of the runs that start with `format` and continue with calls that
are allowed where they are made.  A call may return an error; after a fault
there is no next state. -/
inductive Reached (allowed : Call → ZiqaFs → Prop) : ZiqaFs → Prop where
  | format {now : UInt32} {d : Disk} {fs : ZiqaFs}
      (h : format now d = (.ok (), fs)) : Reached allowed fs
  | call {fs fs' : ZiqaFs} {c : Call} {r : Except Failure Unit}
      (h : Reached allowed fs) (hallowed : allowed c fs)
      (hrun : c.exec.run fs = (r, fs')) (hreturns : r ≠ .error .fault) :
      Reached allowed fs'

def Call.Safe (c : Call) (fs : ZiqaFs) : Prop :=
  match c with
  | .createFile _ _ _ => True
  | .createDir _ _ _ _ => True
  | .writeFile _ id offset buf => WriteSafe fs id offset buf.length
  | .truncate _ _ _ => True
  | .link _ _ dst _ => DirRoom fs.device dst
  | .rename _ _ dst _ => DirRoom fs.device dst
  | .unlink _ parent name => UnlinkSafe fs.device parent name

def Call.Creates : Call → Prop
  | .createFile _ _ _ | .createDir _ _ _ _ => True
  | _ => False

variable {fs fs' : ZiqaFs} {now : UInt32} {d : Disk} {I : ZiqaFs → Prop} [Steady I]

theorem Call.exec_spec (c : Call) (hs : SoundIn I fs) (hsafe : c.Safe fs)
    (htake : c.Creates → TakesSlot I fs) :
    Spec (· = fs) c.exec (fun _ => SoundIn I) (fun _ => SoundIn I) := by
  cases c with
  | createFile now parent name =>
    exact (createFile_spec hs (htake trivial)).bind fun _ => Spec.pure fun _ h => h
  | createDir now now' parent name =>
    exact (createDir_spec hs (htake trivial)).bind fun _ => Spec.pure fun _ h => h
  | writeFile now id offset buf =>
    exact (writeFile_safe hs hsafe).bind fun _ => Spec.pure fun _ h => h
  | truncate now id newSize => exact truncate_spec hs
  | link now src dst name => exact link_spec hs hsafe
  | rename src name dst newName => exact rename_spec hs hsafe
  | unlink now parent name => exact unlink_spec hs hsafe

theorem createRootDir_spec (hs : SoundIn I fs) (htake : TakesSlot I fs) :
    Spec (· = fs) (createRootDir now) (fun _ => SoundIn I) (fun _ => SoundIn I) := by
  refine (allocInode_taken hs htake).bind fun rootId => ?_
  refine Spec.pointwise fun s ⟨⟨hs1, hlive⟩, _⟩ => ?_
  have hroot := congrFun hlive rootId
  rw [Function.update_self] at hroot
  refine attach_spec hs1 hroot (fun b => ⟨rfl, rfl, rfl, rfl⟩) fun b s2 hs2 hlive2 hdata => ?_
  have hroot2 := congrFun hlive2 rootId
  rw [Function.update_self] at hroot2
  exact (writeData_spec hs2.holds (hs2.ownTree hroot2) hdata _).consequence (fun _ h => h)
    (fun _ _ h => hs2.of_kept hroot2 h) (fun _ _ h => hs2.of_kept hroot2 h)

theorem bitSet_foldl_setBitmapBit {bits : List Nat} (hbits : ∀ j ∈ bits, j < 32768)
    {bitmap : Block} {i : Nat}
    (h : bitSet (bits.foldl setBitmapBit bitmap) i = true) :
    bitSet bitmap i = true ∨ i ∈ bits := by
  induction bits generalizing bitmap with
  | nil => exact Or.inl h
  | cons j rest ih =>
    rcases ih (fun k hk => hbits k (List.mem_cons_of_mem j hk)) h with hset | hmem
    · rw [bitSet_setBitmapBit _ (hbits j List.mem_cons_self), Bool.or_eq_true,
        decide_eq_true_iff] at hset
      exact hset.imp_right fun heq => List.mem_cons.mpr (Or.inl heq)
    · exact Or.inr (List.mem_cons_of_mem j hmem)

/-- The volume as `format` has it before the root directory is made. -/
def blankVolume (d : Disk) (super : Block) : ZiqaFs where
  device := (((d.setBlock superblockBlock super).setBlock bitmapBlock
    ((List.range firstDataBlock.toNat).foldl setBitmapBit Image.zero)).setBlock
      journalBlock (Image.zero.splice 0 4 (le32 journalMagic))).setBlock inodeTableBlock Image.zero
  sb := initialSuperblock d

variable {super : Block}

theorem blankVolume_healthy (hrange : d.InRange journalBlock) :
    Healthy (blankVolume d super) where
  first := rfl
  bounded b hb := by
    rw [blankVolume, marked_setBlock _ (by decide), marked_setBlock _ (by decide),
      marked, Disk.block_setBlock_self] at hb
    have hfirst : firstDataBlock.toNat = 5 := rfl
    have hbits : ∀ j ∈ List.range firstDataBlock.toNat, j < 32768 := by
      intro j hj
      rw [List.mem_range, hfirst] at hj
      omega
    rcases bitSet_foldl_setBitmapBit hbits hb with hset | hmem
    · rw [bitSet_eq_testBit] at hset
      simp at hset
    · rw [List.mem_range, hfirst] at hmem
      exact Or.inl hmem
  inRange b hb := by
    change 8 * b.toNat + 8 ≤ d.totalSectors
    rcases hb with hlow | hlt
    · have hjournal : 8 * 4 + 8 ≤ d.totalSectors := hrange
      omega
    · change b.toNat < (deviceBlocks d).toNat at hlt
      rw [deviceBlocks, UInt32.toNat_ofNat'] at hlt
      omega

theorem blankVolume_refs (p : UInt32 × Slot) :
    refs wordLayout (blankVolume d super).device
      (liveInode (blankVolume d super).device) p = 0 := by
  unfold refs
  cases hx : liveInode (blankVolume d super).device p.1 with
  | none => rfl
  | some x =>
    obtain ⟨-, -, -, hslot, -⟩ :=
      loadInode_eq_ok_iff.mp (liveInode_eq_some_iff.mp hx)
    have hzero : slotInode ((blankVolume d super).device.block inodeTableBlock)
        p.1 = Inode.ofBytes fun _ => 0 := by
      rw [blankVolume, Disk.block_setBlock_self]
      exact Inode.ofBytes_congr fun k _ => Image.get_zero _
    simp only [tree, hslot, hzero, refAt_zeroInode, ite_self]

theorem blankVolume_sound (hrange : d.InRange journalBlock) :
    Sound (blankVolume d super) where
  healthy := blankVolume_healthy hrange
  owned := ⟨fun hp _ => absurd (blankVolume_refs _) hp, fun hp => absurd (blankVolume_refs _) hp⟩

theorem createRootDir_flush_spec (hs : SoundIn I fs) (htake : TakesSlot I fs) :
    Spec (· = fs) (do
        createRootDir now
        modify fun fs => { fs with sb := { fs.sb with flags := 0 } }
        flushSuperblock : FsM Unit)
      (fun _ => SoundIn I) (fun _ => SoundIn I) :=
  (createRootDir_spec hs htake).bind fun _ =>
    (Spec.modify fun _ hs => ⟨hs.toSound.congr rfl ⟨rfl, rfl⟩, Steady.clean hs.holds⟩).bind
      fun _ => flushSuperblock_spec

theorem format_run (h : format now d = (.ok (), fs)) : ∃ super, d.InRange journalBlock ∧ (do
      createRootDir now
      modify fun fs => { fs with sb := { fs.sb with flags := 0 } }
      flushSuperblock : FsM Unit).run (blankVolume d super) = (.ok (), fs) := by
  rw [format, formatBody, run_bind_eq_ok_iff] at h
  obtain ⟨_, fs1, hflush, h⟩ := h
  rw [flushSuperblock, run_bind, run_gets] at hflush
  obtain ⟨-, hfs1⟩ := writeBlock_eq_ok_iff.mp hflush
  generalize Image.zero.splice 0 superblockSize _ = super at hfs1
  rw [run_bind_eq_ok_iff] at h
  obtain ⟨_, fs2, hbitmap, h⟩ := h
  obtain ⟨-, hfs2⟩ := writeBlock_eq_ok_iff.mp hbitmap
  rw [run_bind_eq_ok_iff] at h
  obtain ⟨_, fs3, hjournal, h⟩ := h
  obtain ⟨hrange, hfs3⟩ := writeBlock_eq_ok_iff.mp hjournal
  rw [run_bind_eq_ok_iff] at h
  obtain ⟨_, fs4, htable, h⟩ := h
  obtain ⟨-, hfs4⟩ := writeBlock_eq_ok_iff.mp htable
  have hblank : fs4 = blankVolume d super := by
    rw [hfs4, hfs3, hfs2, hfs1]
    rfl
  have hrange' : d.InRange journalBlock := by
    rw [hfs2, hfs1] at hrange
    exact hrange
  rw [hblank] at h
  exact ⟨super, hrange', h⟩

theorem format_sound (h : format now d = (.ok (), fs)) : Sound fs := by
  obtain ⟨super, hrange, hrest⟩ := format_run h
  exact ((createRootDir_flush_spec (blankVolume_sound hrange).plain fun _ _ _ _ =>
    trivial).ok _ _ _ rfl hrest).toSound

theorem Reached.sound (h : Reached Call.Safe fs) : Sound fs := by
  induction h with
  | format h => exact format_sound h
  | call h hsafe hrun _ ih =>
    exact ((Call.exec_spec _ ih.plain hsafe fun _ _ _ _ _ => trivial).state rfl hrun).toSound

/-- Along every run whose calls are safe where they are made, every block that
a readable inode names is a data block marked in the bitmap, and it is named
once.  The words that only `inode_alloc_block` and `free_inode_blocks` take for
block numbers count too. -/
theorem reached_owned (fs : ZiqaFs) (h : Reached Call.Safe fs) :
    Owned wordLayout fs.device (liveInode fs.device) :=
  h.sound.owned

section

/-- A file written across the boundary between its last direct block and its
first indirect one. -/
def boundaryWrite : Call := .writeFile 0 2 40959 [1, 1]

def volumeFormatted : ZiqaFs := (format 0 emptyDevice).2

def volumeCreated : ZiqaFs :=
  ((Call.createFile 0 1 [102]).exec.run volumeFormatted).2

def volumeWritten : ZiqaFs := (boundaryWrite.exec.run volumeCreated).2

/-- The file cut back to its direct blocks.  `truncate` zeroes a word of the
indirect block and leaves the recorded checksum as it was. -/
def volumeCut : ZiqaFs :=
  ((Call.truncate 0 2 40960).exec.run volumeWritten).2

/-- The same write once more: it replaces and frees the last direct block, then
the stale checksum stops it before the inode is stored. -/
def volumeStranded : ZiqaFs := (boundaryWrite.exec.run volumeCut).2

variable {allowed : Call → ZiqaFs → Prop}

theorem reached_format
    (hfst : (format now d).1 = .ok ()) : Reached allowed (format now d).2 :=
  .format (Prod.ext hfst rfl)

theorem Reached.step {r : Except Failure Unit}
    (h : Reached allowed fs) {c : Call} (hallowed : allowed c fs)
    (hfst : (c.exec.run fs).1 = r) (hreturns : r ≠ .error .fault) :
    Reached allowed (c.exec.run fs).2 :=
  .call h hallowed (Prod.ext hfst rfl) hreturns

theorem volumeCreated_reached (allowed : Call → ZiqaFs → Prop)
    (hallowed : allowed (.createFile 0 1 [102]) volumeFormatted) :
    Reached allowed volumeCreated := by
  have hformat : (format 0 emptyDevice).1 = .ok () := by decide +kernel
  have hcreate : ((Call.createFile 0 1 [102]).exec.run volumeFormatted).1 = .ok () := by
    decide +kernel
  have hformatted : Reached allowed volumeFormatted := by
    unfold volumeFormatted
    exact reached_format hformat
  unfold volumeCreated
  exact hformatted.step hallowed hcreate (by simp)

theorem volumeWritten_reached (h : Reached allowed volumeCreated)
    (hallowed : allowed boundaryWrite volumeCreated) :
    Reached allowed volumeWritten := by
  have hok : (boundaryWrite.exec.run volumeCreated).1 = .ok () := by
    decide +kernel
  unfold volumeWritten
  exact h.step hallowed hok (by simp)

theorem volumeCreated_empty : ∃ x, liveInode volumeCreated.device 2 = some x ∧
    x.size = 0 ∧ ∀ i, x.blocks i = 0 := by
  have hany : (liveInode volumeCreated.device 2).any
      (fun x => decide (x.size = 0 ∧ ∀ i, x.blocks i = 0)) = true := by
    decide +kernel
  simpa only [Option.any_eq_true, decide_eq_true_eq] using hany

theorem volumeWritten_safe : Reached Call.Safe volumeWritten := by
  obtain ⟨y, hy, -, hblocks⟩ := volumeCreated_empty
  have hempty : boundaryWrite.Safe volumeCreated := by
    intro x hx
    obtain rfl : y = x := Option.some.inj (hy.symm.trans hx)
    exact Or.inl fun p _ _ i _ => hblocks i
  exact volumeWritten_reached (volumeCreated_reached Call.Safe trivial) hempty

/-- The file and the first write, which overwrites nothing. -/
theorem reached_owned_written :
    Owned wordLayout volumeWritten.device (liveInode volumeWritten.device) := by
  exact reached_owned volumeWritten volumeWritten_safe

set_option maxRecDepth 100000 in
theorem volumeStranded_facts : ((Call.truncate 0 2 40960).exec.run volumeWritten).1 = .ok () ∧
      (boundaryWrite.exec.run volumeCut).1 =
        .error (.error (.other "Indirect block checksum mismatch")) ∧
      refs pairLayout volumeStranded.device (liveInode volumeStranded.device) (2, .direct 9) ≠ 0 ∧
      ¬ marked volumeStranded.device (refs pairLayout volumeStranded.device
        (liveInode volumeStranded.device) (2, .direct 9)) := by
  decide +kernel

/-- A write that fails leaves an inode that names a freed block, in a place that
`inode_get_block` follows. -/
theorem reached_not_owned : ∃ fs, Reached (fun _ _ => True) fs ∧
      ¬ Owned wordLayout fs.device (liveInode fs.device) ∧
      ¬ Owned pairLayout fs.device (liveInode fs.device) := by
  obtain ⟨htruncate, hfailed, hnamed, hfreed⟩ := volumeStranded_facts
  have hcreated := volumeCreated_reached (fun _ _ => True) trivial
  have hwritten := volumeWritten_reached hcreated trivial
  have hcut : Reached (fun _ _ => True) volumeCut := by
    unfold volumeCut
    exact hwritten.step trivial htruncate (by simp)
  have hstranded : Reached (fun _ _ => True) volumeStranded := by
    unfold volumeStranded
    exact hcut.step trivial hfailed (by simp)
  have hpairs : ¬ Owned pairLayout volumeStranded.device (liveInode volumeStranded.device) :=
    fun howned => hfreed (howned.used hnamed).2
  exact ⟨volumeStranded, hstranded, fun howned => hpairs howned.pairs, hpairs⟩

end

end ZiqaKernel
