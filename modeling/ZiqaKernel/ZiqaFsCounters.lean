/-
The counters of the superblock.  Each call is followed step by step: what is
allocated was free, what is freed was marked, and no other write meets the bitmap
or the slot of an inode that is not in use.
-/
import ZiqaKernel.ZiqaFsRuns

namespace ZiqaKernel

open Fallible (Spec)

variable {fs s s' : ZiqaFs} {x x' y : Inode} {id b : UInt32} {t : Slot}

/-- From `fs` to `s` the counter of the free blocks has stayed exact, and no inode has
come or gone. -/
structure Tally (fs s : ZiqaFs) : Prop where
  total : s.sb.totalBlocks = fs.sb.totalBlocks
  blocks : fs.sb.freeBlocks.toNat = freeCount fs → s.sb.freeBlocks.toNat = freeCount s
  live : ∀ j, (liveInode s.device j).isSome = (liveInode fs.device j).isSome
  inodes : s.sb.freeInodes = fs.sb.freeInodes

theorem Tally.refl (fs : ZiqaFs) : Tally fs fs :=
  ⟨rfl, fun h => h, fun _ => rfl, rfl⟩

/-! Single steps -/

theorem Tally.setBlock (hbit : b ≠ bitmapBlock) (htab : b ≠ inodeTableBlock)
    (buf : Block) : Tally fs { fs with device := fs.device.setBlock b buf } where
  total := rfl
  blocks h := h.trans (freeCount_setBlock hbit buf).symm
  live j := by
    change (liveInode (fs.device.setBlock b buf) j).isSome = _
    rw [liveInode_setBlock _ htab]
  inodes := rfl

theorem pred32_toNat {v : UInt32} (h : 0 < v.toNat) : (pred32 v).toNat = v.toNat - 1 := by
  have hne : v ≠ 0 := by
    rintro rfl
    exact absurd h (by decide)
  have hle : (1 : UInt32) ≤ v := UInt32.le_iff_toNat_le.mpr h
  rw [pred32, if_neg hne, UInt32.toNat_sub_of_le _ _ hle]
  rfl

theorem succ32_toNat {v : UInt32} (h : v.toNat < 32768) :
    (succ32 v).toNat = v.toNat + 1 := by
  have hne : v ≠ 0xFFFFFFFF := by
    rintro rfl
    exact absurd h (by decide)
  rw [succ32, if_neg hne, UInt32.toNat_add, UInt32.toNat_one]
  omega

theorem freeCount_lt (fs : ZiqaFs) : freeCount fs < 32768 := by
  have hcard : freeCount fs ≤ (Finset.Ico 5 (min fs.sb.totalBlocks.toNat 32768)).card :=
    Finset.card_filter_le _ _
  rw [Nat.card_Ico] at hcard
  omega

theorem freeSet_alloc (hh : Healthy fs) (h : allocDataBlock.run fs = (.ok b, s)) :
    b.toNat ∈ freeSet fs ∧ freeSet s = (freeSet fs).erase b.toNat := by
  obtain ⟨hfind, htotal, -, -, rfl⟩ := allocDataBlock_ok h
  obtain ⟨hfirst, hsize, hclear⟩ := bitmapFindClear_some hfind
  rw [hh.first] at hfirst
  have hfive : 5 ≤ b.toNat := hfirst
  have hne : bitmapBlock ≠ b := by
    rintro rfl
    exact absurd hfive (by decide)
  constructor
  · simp only [freeSet, Finset.mem_filter, Finset.mem_Ico]
    exact ⟨⟨hfive, by omega⟩, hclear⟩
  · ext i
    simp only [freeSet, Finset.mem_erase, Finset.mem_filter, Finset.mem_Ico,
      Disk.block_setBlock_ne _ _ hne, Disk.block_setBlock_self,
      bitSet_setBitmapBit _ (show b.toNat < 32768 by omega), Bool.or_eq_false_iff,
      decide_eq_false_iff_not]
    tauto

theorem allocDataBlock_tally (hh : Healthy fs) : Tally fs (allocDataBlock.run fs).2 := by
  rcases hrun : allocDataBlock.run fs with ⟨e | b, s⟩
  · change Tally fs s
    rw [(allocDataBlock_error hh hrun).1]
    exact Tally.refl _
  · obtain ⟨hmem, hset⟩ := freeSet_alloc hh hrun
    obtain ⟨halloc, -⟩ := allocDataBlock_spec hh.reserved hrun
    have hload := fun j => loadInode_congr (j := j) halloc.extends_.sectors
      (halloc.extends_.keeps inodeTableBlock (by decide) (Or.inl (by decide)))
    obtain ⟨-, -, -, -, rfl⟩ := allocDataBlock_ok hrun
    refine ⟨rfl, fun hexact => ?_, fun j => ?_, rfl⟩
    · have hpos : 0 < freeCount _ := Finset.card_pos.mpr ⟨_, hmem⟩
      rw [freeCount, hset, Finset.card_erase_of_mem hmem]
      change (pred32 _).toNat = _
      rw [pred32_toNat (hexact ▸ hpos), hexact]
      rfl
    · unfold liveInode
      rw [hload j]

theorem freeSet_free (hb : Freeable fs b) :
    freeSet { device := fs.device.setBlock bitmapBlock
                (clearBitmapBit (fs.device.block bitmapBlock) b.toNat)
              sb := { fs.sb with freeBlocks := succ32 fs.sb.freeBlocks } } =
      insert b.toNat (freeSet fs) := by
  have hdata := hb.data
  have htotal := hb.total
  have hsize := hb.bitmap
  ext i
  simp only [freeSet, Finset.mem_insert, Finset.mem_filter, Finset.mem_Ico,
    Disk.block_setBlock_self, bitSet_clearBitmapBit _ hsize, Bool.and_eq_false_iff,
    decide_eq_false_iff_not, not_not]
  constructor
  · rintro ⟨hrange, hclear | rfl⟩
    · exact Or.inr ⟨hrange, hclear⟩
    · exact Or.inl rfl
  · rintro (rfl | ⟨hrange, hclear⟩)
    · exact ⟨by omega, Or.inr rfl⟩
    · exact ⟨hrange, Or.inl hclear⟩

theorem freeDataBlock_tally (hh : Healthy fs) (hb : InUse fs.device b) :
    Tally fs ((freeDataBlock b).run fs).2 := by
  have hfree := hh.freeable hb
  rw [freeDataBlock_run hh hfree]
  refine ⟨rfl, fun hexact => ?_, fun j => ?_, rfl⟩
  · have hnot : b.toNat ∉ freeSet fs := by
      have hmark := hb.2
      rw [marked] at hmark
      simp [freeSet, hmark]
    rw [freeCount, freeSet_free hfree, Finset.card_insert_of_notMem hnot]
    change (succ32 _).toNat = _
    rw [succ32_toNat (hexact ▸ freeCount_lt fs), hexact]
    rfl
  · change (liveInode (fs.device.setBlock _ _) j).isSome = _
    rw [liveInode_setBlock _ (by decide)]

theorem writeInode_tally (hlive : (liveInode fs.device id).isSome = true) :
    Tally fs ((writeInode id y).run fs).2 := by
  obtain ⟨z, hz⟩ := Option.isSome_iff_exists.mp hlive
  obtain ⟨hid, hfit, hrange, -, -⟩ :=
    loadInode_eq_ok_iff.mp (liveInode_eq_some_iff.mp hz)
  have hself : liveInode (fs.device.withSlot id y.stamped.toBytes) id =
      some y.stamped :=
    liveInode_eq_some_iff.mpr
      (loadInode_self hid hfit hrange ⟨_, Disk.block_setBlock_self _ _ _⟩)
  rw [writeInode_run hid hfit hrange]
  refine ⟨rfl, fun hexact => ?_, fun j => ?_, rfl⟩
  · exact hexact.trans (freeCount_setBlock (by decide) _).symm
  · change (liveInode (fs.device.withSlot id _) j).isSome = _
    rw [liveInode_withSlot, hself]
    by_cases hj : j = id
    · rw [hj, Function.update_self, hlive]
      rfl
    · rw [Function.update_of_ne hj]

/-! Inodes -/

/-- The inode slots that can be handed out and are not in use.  Slot 0 never is. -/
def unusedSlots (d : Disk) : Finset Nat :=
  (Finset.Ico 1 32).filter fun i => (liveInode d (UInt32.ofNat i)).isSome = false

structure CountersExact (fs : ZiqaFs) : Prop where
  blocks : fs.sb.freeBlocks.toNat = freeCount fs
  inodes : fs.sb.freeInodes.toNat = (unusedSlots fs.device).card

structure Census (fs s : ZiqaFs) : Prop where
  total : s.sb.totalBlocks = fs.sb.totalBlocks
  zero : liveInode fs.device 0 = none → liveInode s.device 0 = none
  exact_ : liveInode fs.device 0 = none → CountersExact fs → CountersExact s

theorem Census.trans (h : Census fs s) (h' : Census s s') : Census fs s' where
  total := h'.total.trans h.total
  zero hfs := h'.zero (h.zero hfs)
  exact_ hfs hexact := h'.exact_ (h.zero hfs) (h.exact_ hfs hexact)

theorem Tally.census (h : Tally fs s) : Census fs s where
  total := h.total
  zero hfs := by
    rw [← Option.isNone_iff_eq_none, ← Option.not_isSome] at hfs ⊢
    rwa [h.live]
  exact_ _ hexact := by
    refine ⟨h.blocks hexact.blocks, ?_⟩
    have hslots : unusedSlots s.device = unusedSlots fs.device := by
      unfold unusedSlots
      simp only [h.live]
    rw [h.inodes, hslots, hexact.inodes]

theorem unusedSlots_lt (d : Disk) : (unusedSlots d).card < 32768 := by
  have hcard : (unusedSlots d).card ≤ (Finset.Ico 1 32).card := Finset.card_filter_le _ _
  rw [Nat.card_Ico] at hcard
  omega

theorem unusedSlots_withSlot {d : Disk} {bytes : Nat → UInt8} (hid : id.toNat < 32)
    (hpos : 0 < id.toNat) :
    unusedSlots (d.withSlot id bytes) =
      if (liveInode (d.withSlot id bytes) id).isSome then
        (unusedSlots d).erase id.toNat
      else insert id.toNat (unusedSlots d) := by
  have hiff : ∀ i ∈ Finset.Ico 1 32, UInt32.ofNat i = id ↔ i = id.toNat := by
    intro i hi
    rw [Finset.mem_Ico] at hi
    rw [← UInt32.toNat_inj, UInt32.toNat_ofNat']
    omega
  rw [unusedSlots, liveInode_withSlot]
  split
  · next hlive =>
    ext i
    rw [Function.update_self] at hlive
    simp only [unusedSlots, Finset.mem_filter, Finset.mem_erase]
    by_cases hi : i ∈ Finset.Ico 1 32
    · by_cases heq : i = id.toNat
      · rw [(hiff i hi).mpr heq, Function.update_self, hlive]
        simp [heq]
      · rw [Function.update_of_ne (fun h => heq ((hiff i hi).mp h))]
        simp [heq]
    · simp [hi]
  · next hlive =>
    ext i
    rw [Function.update_self, Bool.not_eq_true] at hlive
    simp only [unusedSlots, Finset.mem_filter, Finset.mem_insert]
    by_cases hi : i ∈ Finset.Ico 1 32
    · by_cases heq : i = id.toNat
      · rw [(hiff i hi).mpr heq, Function.update_self, hlive]
        exact ⟨fun _ => Or.inl heq, fun _ => ⟨hi, rfl⟩⟩
      · rw [Function.update_of_ne (fun h => heq ((hiff i hi).mp h))]
        simp [heq]
    · have hne : i ≠ id.toNat := by
        rintro rfl
        exact hi (Finset.mem_Ico.mpr ⟨hpos, hid⟩)
      simp [hi, hne]

theorem liveInode_zeroSlot {d : Disk}
    (h : slotInode (d.block inodeTableBlock) id = Inode.ofBytes fun _ => 0) :
    liveInode d id = none := by
  cases hlive : liveInode d id with
  | none => rfl
  | some z =>
    obtain ⟨-, -, -, hslot, hsum⟩ :=
      loadInode_eq_ok_iff.mp (liveInode_eq_some_iff.mp hlive)
    rw [h] at hslot
    subst hslot
    exact absurd hsum (by decide +kernel)

theorem liveInode_withSlot_zero (d : Disk) (hfit : SlotFits id) :
    liveInode (d.withSlot id fun _ => 0) id = none := by
  apply liveInode_zeroSlot
  rw [Disk.withSlot, Disk.block_setBlock_self, slotInode_setSlot_zero _ hfit]

theorem freeInode_census (hlive : (liveInode s.device id).isSome = true) :
    Census s ((freeInode id).run s).2 := by
  obtain ⟨z, hz⟩ := Option.isSome_iff_exists.mp hlive
  obtain ⟨hid, hfit, hrange, -, -⟩ :=
    loadInode_eq_ok_iff.mp (liveInode_eq_some_iff.mp hz)
  have hid' : id.toNat < 32 := by
    rw [ge_iff_le, UInt32.le_iff_toNat_le] at hid
    exact Nat.not_le.mp hid
  have hgone := liveInode_withSlot_zero s.device hfit
  rw [freeInode_run hid hfit hrange]
  refine ⟨rfl, fun hzero => ?_, fun hzero hexact => ⟨?_, ?_⟩⟩
  · change liveInode (s.device.withSlot id _) 0 = none
    rw [liveInode_withSlot, hgone]
    by_cases h0 : (0 : UInt32) = id
    · rw [h0, Function.update_self]
    · rw [Function.update_of_ne h0, hzero]
  · exact hexact.blocks.trans (freeCount_setBlock (by decide) _).symm
  · have hpos : 0 < id.toNat := by
      rcases Nat.eq_zero_or_pos id.toNat with h0 | hpos
      · have hid0 : id = 0 := UInt32.toNat_inj.mp h0
        rw [hid0, hzero] at hlive
        cases hlive
      · exact hpos
    have hnot : id.toNat ∉ unusedSlots s.device := by
      have hback : UInt32.ofNat id.toNat = id := by simp
      intro hmem
      rw [unusedSlots, Finset.mem_filter, hback, hlive] at hmem
      cases hmem.2
    change (succ32 s.sb.freeInodes).toNat = (unusedSlots (s.device.withSlot id _)).card
    rw [unusedSlots_withSlot hid' hpos, hgone, succ32_toNat
      (hexact.inodes ▸ unusedSlots_lt _), hexact.inodes]
    exact (Finset.card_insert_of_notMem hnot).symm

/-- The slot that `alloc_inode` will take is not in use. -/
def SlotFree (d : Disk) : Prop :=
  ∀ i, inodeFindFree (d.block inodeTableBlock) inodeCount.toNat 136 1 = some i →
    liveInode d (UInt32.ofNat i) = none

theorem SlotTaken.census (h : SlotTaken fs s id y) (hh : Healthy fs)
    (hfree : SlotFree fs.device) : Census fs s := by
  have hself := h.live hh
  have hunused := hfree _ h.found
  obtain ⟨hstart, hcount, -⟩ := inodeFindFree_some h.found
  have hback : UInt32.ofNat id.toNat = id := by simp
  rw [h.state]
  refine ⟨rfl, fun hzero => ?_, fun hzero hexact => ⟨?_, ?_⟩⟩
  · have h0 : (0 : UInt32) ≠ id := by
      rintro rfl
      exact absurd hstart (by decide)
    rw [liveInode_withSlot, Function.update_of_ne h0, hzero]
  · exact hexact.blocks.trans (freeCount_setBlock (by decide) _).symm
  · have hmem : id.toNat ∈ unusedSlots fs.device := by
      rw [hback] at hunused
      simp only [unusedSlots, Finset.mem_filter, Finset.mem_Ico, hback, hunused]
      exact ⟨⟨hstart, hcount⟩, rfl⟩
    have hpos : 0 < fs.sb.freeInodes.toNat := by
      rw [hexact.inodes]
      exact Finset.card_pos.mpr ⟨_, hmem⟩
    change (pred32 fs.sb.freeInodes).toNat = _
    rw [unusedSlots_withSlot hcount hstart, hself, pred32_toNat hpos, hexact.inodes]
    exact (Finset.card_erase_of_mem hmem).symm

/-! Calls -/

instance : Steady (Census fs) where
  setBlock buf h hbit htab := h.trans (Tally.setBlock hbit htab buf).census
  alloc h hh := h.trans (allocDataBlock_tally hh).census
  free h hh hb := h.trans (freeDataBlock_tally hh hb).census
  store _ h hlive := h.trans (writeInode_tally hlive).census
  release h hlive := h.trans (freeInode_census hlive)
  clean h := h.trans (Tally.census ⟨rfl, fun hexact => hexact, fun _ => rfl, rfl⟩)

/-- The calls that keep the counters exact: they are safe, and what they create goes to
a slot that is not in use. -/
def Call.Counted (c : Call) (fs : ZiqaFs) : Prop :=
  c.Safe fs ∧
    match c with
    | .createFile _ _ _ | .createDir _ _ _ _ => SlotFree fs.device
    | _ => True

theorem Call.Counted.slotFree {c : Call} (h : c.Counted fs) (hc : c.Creates) :
    SlotFree fs.device := by
  cases c with
  | createFile now parent name => exact h.2
  | createDir now now' parent name => exact h.2
  | _ => exact hc.elim

/-! Runs -/

section

variable {d : Disk} {super : Block} {now : UInt32}

theorem blankVolume_live (id : UInt32) :
    liveInode (blankVolume d super).device id = none := by
  apply liveInode_zeroSlot
  rw [blankVolume, Disk.block_setBlock_self]
  exact Inode.ofBytes_congr fun k _ => Image.get_zero _

theorem blankVolume_exact (hsize : (deviceBlocks d).toNat ≤ 32768) :
    CountersExact (blankVolume d super) where
  blocks := by
    have hclear : ∀ i, 5 ≤ i →
        bitSet ((blankVolume d super).device.block bitmapBlock) i = false := by
      intro i hi
      rw [blankVolume, Disk.block_setBlock_ne _ _ (by decide),
        Disk.block_setBlock_ne _ _ (by decide), Disk.block_setBlock_self,
        ← Bool.not_eq_true]
      intro hset
      have hbits : ∀ j ∈ List.range firstDataBlock.toNat, j < 32768 := by
        intro j hj
        have hlt : j < 5 := List.mem_range.mp hj
        omega
      rcases bitSet_foldl_setBitmapBit hbits hset with hzero | hmem
      · rw [bitSet_eq_testBit] at hzero
        simp at hzero
      · have hlt : i < 5 := List.mem_range.mp hmem
        omega
    have hset : freeSet (blankVolume d super) =
        Finset.Ico 5 (min (deviceBlocks d).toNat 32768) := by
      refine Finset.filter_true_of_mem fun i hi => hclear i ?_
      exact (Finset.mem_Ico.mp hi).1
    rw [freeCount, hset, Nat.card_Ico, Nat.min_eq_left hsize]
    change (UInt32.ofNat ((deviceBlocks d).toNat - 5)).toNat = _
    rw [UInt32.toNat_ofNat']
    omega
  inodes := by
    have hset : unusedSlots (blankVolume d super).device = Finset.Ico 1 32 := by
      refine Finset.filter_true_of_mem fun i _ => ?_
      rw [blankVolume_live]
      rfl
    rw [hset]
    rfl

theorem format_census (h : format now d = (.ok (), fs)) :
    ∃ super, Census (blankVolume d super) fs := by
  obtain ⟨super, hrange, hrest⟩ := format_run h
  have hblank : Sound (blankVolume d super) := blankVolume_sound hrange
  have htake : TakesSlot (Census (blankVolume d super)) (blankVolume d super) := fun _ _ _ h =>
    h.census hblank.healthy fun i _ => blankVolume_live _
  have hstart : SoundIn (Census (blankVolume d super)) (blankVolume d super) :=
    ⟨hblank, (Tally.refl _).census⟩
  exact ⟨super, ((createRootDir_flush_spec hstart htake).ok _ _ _ rfl hrest).holds⟩

end

theorem Reached.safe (h : Reached Call.Counted fs) : Reached Call.Safe fs := by
  induction h with
  | format h => exact .format h
  | call _ hc hrun hreturns ih => exact .call ih hc.1 hrun hreturns

theorem Reached.census (h : Reached Call.Counted fs) :
    ∃ d super, Census (blankVolume d super) fs := by
  induction h with
  | @format now d fs h => exact ⟨d, format_census h⟩
  | @call fs fs' c r h hc hrun _ ih =>
    obtain ⟨d, super, hcensus⟩ := ih
    have hs := h.safe.sound
    exact ⟨d, super, ((c.exec_spec ⟨hs, hcensus⟩ hc.1 fun hcreates _ _ _ htaken =>
      hcensus.trans (htaken.census hs.healthy (hc.slotFree hcreates))).state rfl hrun).holds⟩

/-- Along every run of calls that are safe and create inodes in unused slots, on a volume
that the bitmap covers, the counters of the superblock are exact. -/
theorem reached_counters (fs : ZiqaFs) (h : Reached Call.Counted fs)
    (hsize : fs.sb.totalBlocks.toNat ≤ 32768) : CountersExact fs := by
  obtain ⟨d, super, hcensus⟩ := h.census
  have htotal : fs.sb.totalBlocks = deviceBlocks d := hcensus.total
  rw [htotal] at hsize
  exact hcensus.exact_ (blankVolume_live 0) (blankVolume_exact hsize)

theorem volumeFormatted_slotFree : SlotFree volumeFormatted.device := by
  have hfind : inodeFindFree (volumeFormatted.device.block inodeTableBlock)
      inodeCount.toNat 136 1 = some 2 := by
    decide +kernel
  have hunused : (liveInode volumeFormatted.device 2).isNone = true := by decide +kernel
  intro i hi
  obtain rfl : 2 = i := Option.some.inj (hfind.symm.trans hi)
  exact Option.isNone_iff_eq_none.mp hunused

/-- A file and a first write to it. -/
theorem reached_counters_written : CountersExact volumeWritten := by
  obtain ⟨y, hy, -, hblocks⟩ := volumeCreated_empty
  have hwrite : boundaryWrite.Counted volumeCreated := by
    refine ⟨fun x hx => Or.inl fun p _ _ i _ => ?_, trivial⟩
    obtain rfl : y = x := Option.some.inj (hy.symm.trans hx)
    exact hblocks i
  exact reached_counters volumeWritten
    (volumeWritten_reached (volumeCreated_reached Call.Counted
      ⟨trivial, volumeFormatted_slotFree⟩) hwrite) (by decide +kernel)

/-- A file created 325 seconds after the start: the checksum of its inode ends in a zero
byte. -/
def volumeUnlucky : ZiqaFs :=
  ((Call.createFile 325 1 [102]).exec.run volumeFormatted).2

def volumeCrowded : ZiqaFs :=
  ((Call.createFile 326 1 [103]).exec.run volumeUnlucky).2

/-- Two files are created, one inode is in use more, and two are counted. -/
theorem reached_counters_crowded :
    Reached (fun _ _ => True) volumeCrowded ∧ ¬ CountersExact volumeCrowded := by
  have hformat : (format 0 emptyDevice).1 = .ok () := by decide +kernel
  have hfirst : ((Call.createFile 325 1 [102]).exec.run volumeFormatted).1 = .ok () := by
    decide +kernel
  have hsecond : ((Call.createFile 326 1 [103]).exec.run volumeUnlucky).1 = .ok () := by
    decide +kernel
  have hcount : volumeCrowded.sb.freeInodes.toNat ≠
      (unusedSlots volumeCrowded.device).card := by
    decide +kernel
  have hformatted : Reached (fun _ _ => True) volumeFormatted := by
    unfold volumeFormatted
    exact reached_format hformat
  have hunlucky : Reached (fun _ _ => True) volumeUnlucky := by
    unfold volumeUnlucky
    exact hformatted.step trivial hfirst (by simp)
  refine ⟨?_, fun h => hcount h.inodes⟩
  unfold volumeCrowded
  exact hunlucky.step trivial hsecond (by simp)

end ZiqaKernel
