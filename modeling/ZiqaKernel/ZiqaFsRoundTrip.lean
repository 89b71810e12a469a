/-
`write_file` followed by `read_file`: the written range reads back as written,
the rest of the file and every other file read as before.
-/
import ZiqaKernel.ZiqaFsInodeTable
import ZiqaKernel.ZiqaFsWrite

namespace ZiqaKernel

open Fallible

variable {L : Layout} {x : Inode} {id : UInt32}

/-- The inode that `write_file` stores. -/
def grown (x : Inode) (now : UInt32) (stop : Nat) : Inode :=
  { x with size := UInt32.ofNat (max stop x.size.toNat), mtime := now }

theorem writeFile_ok {fs fs' : ZiqaFs} {now : UInt32} {offset n : Nat} {buf : List UInt8}
    (h : (writeFile now id offset buf).run fs = (.ok n, fs')) :
    ∃ x x' fs1 sb, loadInode fs.device id = .ok x ∧ x.mode ≠ inodeModeDir ∧
      (writeLoop buf.length x offset buf).run fs = (.ok x', fs1) ∧
      ¬ id ≥ inodeCount ∧ SlotFits id ∧ fs1.device.InRange inodeTableBlock ∧
      fs' = { fs1 with
        device := stored fs1.device id (grown x' now ((offset + buf.length) % 2 ^ 64)) sb } := by
  rw [writeFile, run_bind_eq_ok_iff] at h
  obtain ⟨x, fs0, hread, h⟩ := h
  rw [readInode_run, Prod.mk.injEq] at hread
  obtain ⟨hload, rfl⟩ := hread
  by_cases hmode : x.mode = inodeModeDir
  · simp [hmode, err] at h
  · rw [if_neg hmode, run_bind_eq_ok_iff] at h
    obtain ⟨x', fs1, hloop, h⟩ := h
    rw [run_bind_eq_ok_iff] at h
    obtain ⟨u, fs2, hwrite, h⟩ := h
    obtain ⟨hid, hfit, hrange, rfl⟩ := writeInode_ok hwrite
    rw [flushSuperblock, run_bind_eq_ok_iff] at h
    obtain ⟨u, fs3, hflush, h⟩ := h
    rw [run_bind, run_gets] at hflush
    obtain ⟨-, rfl⟩ := writeBlock_eq_ok_iff.mp hflush
    rw [run_pure_eq_ok_iff] at h
    exact ⟨x, x', fs1, _, hload, hmode, hloop, hid, hfit, hrange, h.2.symm⟩

/-- What a file operation on `id` that replaces inode `x` by `y` leaves in
order: the other files, and the ownership of blocks. -/
structure FileUpdated (L : Layout) (fs fs' : ZiqaFs) (id : UInt32) (x y : Inode) : Prop where
  sectors : fs'.device.totalSectors = fs.device.totalSectors
  upper : ∀ b, marked fs'.device b → marked fs.device b ∨ b.toNat < fs.sb.totalBlocks.toNat
  before : loadInode fs.device id = .ok x
  after : loadInode fs'.device id = .ok y
  others : ∀ j, j ≠ id → loadInode fs'.device j = loadInode fs.device j
  contents : ∀ j z, j ≠ id → loadInode fs.device j = .ok z →
    contents fs'.device z = contents fs.device z
  owned : Owned L fs'.device (liveInode fs'.device)
  reserved : Reserved fs'
  geometry : SameGeometry fs fs'

theorem FileUpdated.fileRead_ne {fs fs' : ZiqaFs} {y : Inode} {j : UInt32}
    (h : FileUpdated L fs fs' id x y) (hne : j ≠ id) (offset len : Nat) :
    fileRead fs'.device j offset len = fileRead fs.device j offset len := by
  unfold fileRead
  rw [h.others j hne]
  cases hload : loadInode fs.device j with
  | error e => rfl
  | ok z => simp only [h.contents j z hne hload]

theorem writeFile_spec {fs fs' : ZiqaFs} {now : UInt32} {offset n : Nat}
    {buf : List UInt8} (howned : Owned L fs.device (liveInode fs.device))
    (hres : Reserved fs)
    (h : (writeFile now id offset buf).run fs = (.ok n, fs')) :
    ∃ x y, FileUpdated L fs fs' id x y ∧ (offset + buf.length ≤ maxBlocks * 4096 →
        y.size.toNat = max (offset + buf.length) x.size.toNat ∧
        Wrote (contents fs.device x) (contents fs'.device y) offset buf) := by
  obtain ⟨x, x', fs1, sb, hload, hmode, hloop, hid, hfit, hrange, rfl⟩ :=
    writeFile_ok h
  have hlive : liveInode fs.device id = some x := liveInode_eq_some_iff.mpr hload
  have hx := howned.exclusive_tree hlive
  obtain ⟨hrew, hgeo, hsize, hwrote⟩ :=
    writeLoop_spec (Nat.le_refl _) hres hx hmode hloop
  generalize hy : grown x' now ((offset + buf.length) % 2 ^ 64) = y
  -- the loop leaves the inode table alone
  have htable : fs1.device.block inodeTableBlock = fs.device.block inodeTableBlock := by
    refine hrew.keeps _ (by decide) (Or.inl (by decide)) fun s hs heq => ?_
    have huse := (hx.used hs).1
    rw [heq] at huse
    exact absurd huse (by decide)
  have hothers : ∀ j, j ≠ id → loadInode (stored fs1.device id y sb) j = loadInode fs.device j := by
    intro j hj
    rw [loadInode_stored_ne sb hj, loadInode_congr hrew.sectors htable]
  have hself := loadInode_stored_self sb hid hfit hrange y
  have htree : tree L fs1.device y.stamped = tree L fs1.device x' := by
    subst hy
    exact tree_congr rfl rfl rfl rfl
  have hmap : contents fs1.device y.stamped = contents fs1.device x' := by
    subst hy
    rfl
  have hfamily : liveInode (stored fs1.device id y sb) =
      Function.update (liveInode fs.device) id (some y.stamped) := by
    funext j
    by_cases hj : j = id
    · rw [hj, Function.update_self]
      exact liveInode_eq_some_iff.mpr hself
    · rw [Function.update_of_ne hj]
      unfold liveInode
      rw [hothers j hj]
  refine ⟨x, y.stamped, ⟨hrew.sectors, fun b hb => ?_, hload, hself, hothers, ?_,
    ?_, ?_, ?_⟩, fun hend => ⟨?_, ?_⟩⟩
  · apply hrew.upper b
    simp only [stored] at hb
    rw [marked_setBlock _ (by decide), marked_setBlock _ (by decide)] at hb
    exact hb
  · intro j z hj hz
    have hz' : liveInode fs.device j = some z := liveInode_eq_some_iff.mpr hz
    have hsame := hrew.sameTree howned hlive hz' hj
    have hz1 : Exclusive (tree L fs1.device z) (InUse fs1.device) := by
      have howned1 := hrew.owned howned hlive
      exact howned1.exclusive_tree (by rw [Function.update_of_ne hj, hz'])
    rw [(sameTree_stored sb y hz1).contents_eq, hsame.contents_eq]
  · change Owned L (stored fs1.device id y sb) (liveInode (stored fs1.device id y sb))
    rw [hfamily]
    exact ((hrew.owned howned hlive).update_congr htree).stored y sb
  · exact (hrew.reserved hx hres hgeo).stored y sb
  · exact ⟨hgeo.firstDataBlock, hgeo.totalBlocks⟩
  · subst hy
    have hold := x.size.toNat_lt
    change (UInt32.ofNat (max ((offset + buf.length) % 2 ^ 64) x'.size.toNat)).toNat = _
    rw [maxBlocks] at hend
    rw [hsize, Nat.mod_eq_of_lt (by omega : offset + buf.length < 2 ^ 64),
      UInt32.toNat_ofNat', Nat.mod_eq_of_lt (by omega)]
  · have hx1 : Exclusive (tree L fs1.device y.stamped) (InUse fs1.device) :=
      htree ▸ hrew.exclusive
    rw [(sameTree_stored sb y hx1).contents_eq, hmap]
    apply hwrote
    rw [maxBlocks] at hend
    omega

theorem map_getD_range (l : List UInt8) : (List.range l.length).map (fun k => l.getD k 0) = l := by
  apply List.ext_getElem
  · simp
  · intro k _ hk
    simp [List.getElem?_eq_getElem hk]

/-- A volume in order: every block that a readable inode references is marked
in the bitmap and referenced once, and no metadata block can be allocated. -/
structure Consistent (fs : ZiqaFs) : Prop where
  owned : Owned pairLayout fs.device (liveInode fs.device)
  reserved : Reserved fs

/-- A write that succeeded reads back as written, leaves every byte of the file
outside its range that could be read, and leaves every other inode.  That the
inode is a file whose slot lies in the table, and that its checksum and those
of the pointer blocks on the way match, follows from the success. -/
theorem writeFile_readFile (fs fs' : ZiqaFs) (now id : UInt32)
    (offset n : Nat) (buf : List UInt8) (hcons : Consistent fs)
    (hend : offset + buf.length ≤ maxBlocks * 4096)
    (h : (writeFile now id offset buf).run fs = (.ok n, fs')) :
    ((readFile id offset buf.length).run fs').1 = .ok buf ∧
      (∀ o len bytes, ((readFile id o len).run fs).1 = .ok bytes →
        ∃ bytes', ((readFile id o bytes.length).run fs').1 = .ok bytes' ∧
          bytes'.length = bytes.length ∧
          ∀ k, o + k < offset ∨ offset + buf.length ≤ o + k → bytes'[k]? = bytes[k]?) ∧
      ∀ j, j ≠ id → ∀ o len, ((readFile j o len).run fs').1 = ((readFile j o len).run fs).1 := by
  obtain ⟨x, y, hupd, hbytes⟩ :=
    writeFile_spec hcons.owned hcons.reserved h
  obtain ⟨hsize, hwrote⟩ := hbytes hend
  simp only [readFile_run]
  refine ⟨?_, ?_, fun j hj o len => hupd.fileRead_ne hj o len⟩
  · have hbytes : ∀ k < buf.length,
        byteAt (contents fs'.device y) (offset + k) = some (buf.getD k 0) := by
      intro k hk
      rw [hwrote.inside k hk, List.getD_eq_getElem?_getD,
        List.getElem?_eq_getElem hk, Option.getD_some]
    rw [fileRead_of_byteAt hupd.after (by omega) hbytes, map_getD_range]
  · intro o len bytes hread
    obtain ⟨x', hload, hold⟩ := byteAt_of_fileRead hread
    obtain rfl : x = x' := Except.ok.inj (hupd.before.symm.trans hload)
    -- each byte that was there is still there or has been overwritten
    have hstill : ∀ k < bytes.length, byteAt (contents fs'.device y) (o + k) =
          some ((byteAt (contents fs'.device y) (o + k)).getD 0) := by
      intro k hk
      have hbyte := (hold k hk).2
      rw [List.getElem?_eq_getElem hk] at hbyte
      by_cases hout : o + k < offset ∨ offset + buf.length ≤ o + k
      · rw [hwrote.outside _ _ hout hbyte, Option.getD_some]
      · have hin := hwrote.inside (o + k - offset) (by omega)
        rw [Nat.add_sub_cancel' (by omega), List.getElem?_eq_getElem (by omega)] at hin
        rw [hin, Option.getD_some]
    have hfit : bytes.length = 0 ∨ o + bytes.length ≤ y.size.toNat := by
      rcases Nat.eq_zero_or_pos bytes.length with hzero | hpos
      · exact Or.inl hzero
      · have hlast := (hold (bytes.length - 1) (by omega)).1
        omega
    refine ⟨_, fileRead_of_byteAt hupd.after hfit hstill, by simp, ?_⟩
    intro k hout
    by_cases hk : k < bytes.length
    · have hbyte := (hold k hk).2
      rw [List.getElem?_eq_getElem hk] at hbyte ⊢
      simp [hk, hwrote.outside _ _ hout hbyte]
    · simp [hk]

def emptyDevice : Disk := { totalSectors := 128, data := fun _ => Image.zero }

def sampleVolume : ZiqaFs where
  device := emptyDevice.setBlock inodeTableBlock
    (setSlot Image.zero 2 (freshInode inodeModeFile 0).stamped.toBytes)
  sb := initialSuperblock emptyDevice

theorem sampleVolume_refAt {x : Inode} (h : liveInode sampleVolume.device id = some x) (s : Slot) :
    refAt sampleVolume.device x s = 0 := by
  obtain ⟨-, -, -, hslot, -⟩ :=
    loadInode_eq_ok_iff.mp (liveInode_eq_some_iff.mp h)
  have hempty : x.blocks = (fun _ => 0) ∧ x.indirect = 0 ∧ x.doubleIndirect = 0 := by
    rw [hslot, sampleVolume, Disk.block_setBlock_self]
    by_cases hid : id = 2
    · subst hid
      rw [slotInode_setSlot_self _ (by decide)]
      exact ⟨rfl, rfl, rfl⟩
    · rw [slotInode_setSlot_ne _ hid]
      simp [slotInode, Inode.ofBytes, u32At]
  obtain ⟨hblocks, hind, hdbl⟩ := hempty
  cases s <;> simp [refAt, hblocks, hind, hdbl]

theorem sampleVolume_consistent : Consistent sampleVolume := by
  have hrefs : ∀ p, refs pairLayout sampleVolume.device (liveInode sampleVolume.device) p = 0 := by
    intro p
    unfold refs
    cases hx : liveInode sampleVolume.device p.1 with
    | none => rfl
    | some x => simp [tree, sampleVolume_refAt hx]
  refine ⟨⟨fun {p q} hp _ => absurd (hrefs p) hp, fun {p} hp => absurd (hrefs p) hp⟩, ?_⟩
  intro b hb hfirst
  exact absurd (Nat.lt_of_le_of_lt hfirst hb) (by decide)

/-- Two bytes across a block boundary of an empty file. -/
theorem writeFile_readFile_sample : ((readFile 2 4095 2).run
      ((writeFile 0 2 4095 [7, 8]).run sampleVolume).2).1 = .ok [7, 8] := by
  have hok : ((writeFile 0 2 4095 [7, 8]).run sampleVolume).1 = .ok 2 := by
    decide +kernel
  have hend : 4095 + [(7 : UInt8), 8].length ≤ maxBlocks * 4096 := by
    simp [maxBlocks]
  have hrun := run_eq_of_fst hok
  generalize ((writeFile 0 2 4095 [7, 8]).run sampleVolume).2 = after at hrun ⊢
  exact (writeFile_readFile sampleVolume after 0 2 4095 2 [7, 8]
    sampleVolume_consistent hend hrun).1

/-- The premise of `Consistent` about references alone: the metadata blocks may be
referenced too, and the allocator may hand them out. -/
def NamedOnce (fs : ZiqaFs) : Prop :=
  Exclusive (refs pairLayout fs.device (liveInode fs.device)) (marked fs.device)

/-- The empty file 2 beside the file 3, whose only block is the inode table. -/
def tableNamed : ZiqaFs where
  device := (emptyDevice.setBlock inodeTableBlock (setSlot
      (setSlot Image.zero 2 (freshInode inodeModeFile 0).stamped.toBytes) 3
      { freshInode inodeModeFile 0 with
        blocks := fun i => if i = 0 then inodeTableBlock else 0
        size := 4096 }.stamped.toBytes)).setBlock
    bitmapBlock (setBitmapBit Image.zero inodeTableBlock.toNat)
  sb := initialSuperblock emptyDevice

theorem tableNamed_refAt {x : Inode} (h : liveInode tableNamed.device id = some x) {s : Slot}
    (hs : refAt tableNamed.device x s ≠ 0) :
    id = 3 ∧ s = .direct 0 ∧ refAt tableNamed.device x s = inodeTableBlock := by
  obtain ⟨-, -, -, hslot, -⟩ :=
    loadInode_eq_ok_iff.mp (liveInode_eq_some_iff.mp h)
  rw [tableNamed, Disk.block_setBlock_ne _ _ (by decide), Disk.block_setBlock_self] at hslot
  by_cases hthree : id = 3
  · subst hthree
    rw [slotInode_setSlot_self _ (by decide)] at hslot
    subst hslot
    cases s with
    | direct i =>
      by_cases hi : i = 0
      · subst hi
        exact ⟨rfl, rfl, rfl⟩
      · exact absurd (if_neg hi) hs
    | _ => exact absurd rfl hs
  · have hempty : x.blocks = (fun _ => 0) ∧ x.indirect = 0 ∧ x.doubleIndirect = 0 := by
      rw [hslot, slotInode_setSlot_ne _ hthree]
      by_cases htwo : id = 2
      · subst htwo
        rw [slotInode_setSlot_self _ (by decide)]
        exact ⟨rfl, rfl, rfl⟩
      · rw [slotInode_setSlot_ne _ htwo]
        simp [slotInode, Inode.ofBytes, u32At]
    obtain ⟨hblocks, hind, hdbl⟩ := hempty
    cases s <;> simp [refAt, hblocks, hind, hdbl] at hs

theorem tableNamed_namedOnce : NamedOnce tableNamed := by
  have hrefs : ∀ p, refs pairLayout tableNamed.device (liveInode tableNamed.device) p ≠ 0 →
      p = (3, .direct 0) ∧
        refs pairLayout tableNamed.device (liveInode tableNamed.device) p = inodeTableBlock := by
    intro p hp
    unfold refs at hp ⊢
    cases hx : liveInode tableNamed.device p.1 with
    | none =>
      rw [hx] at hp
      exact absurd rfl hp
    | some x =>
      simp only [hx, tree] at hp ⊢
      split_ifs at hp ⊢ with hcounts
      · obtain ⟨hid, hslot, href⟩ := tableNamed_refAt hx hp
        exact ⟨Prod.ext hid hslot, href⟩
      · exact absurd rfl hp
  refine ⟨fun {p q} hp heq => ?_, fun {p} hp => ?_⟩
  · rw [(hrefs p hp).1, (hrefs q (heq ▸ hp)).1]
  · rw [(hrefs p hp).2]
    decide +kernel

/-- `sampleVolume` with a superblock that starts the data blocks at the inode
table, whose bit is clear. -/
def looseVolume : ZiqaFs :=
  { sampleVolume with sb := { sampleVolume.sb with firstDataBlock := inodeTableBlock } }

/-- `NamedOnce` alone does not give the round trip.  A write to file 2 of
`tableNamed` changes what file 3 reads, because storing inode 2 (here its size)
changes the block that file 3 names.  On `looseVolume` the data go to the inode table, and storing
the inode overwrites them. -/
theorem writeFile_metadata :
    (NamedOnce tableNamed ∧ ((writeFile 0 2 0 [7]).run tableNamed).1 = .ok 1 ∧
      ((readFile 3 (272 + 12) 4).run tableNamed).1 = .ok [0, 0, 0, 0] ∧
      ((readFile 3 (272 + 12) 4).run ((writeFile 0 2 0 [7]).run tableNamed).2).1 =
        .ok [1, 0, 0, 0]) ∧
    NamedOnce looseVolume ∧
      ((writeFile 0 2 272 (List.replicate 20 7)).run looseVolume).1 = .ok 20 ∧
      ((readFile 2 272 20).run
        ((writeFile 0 2 272 (List.replicate 20 7)).run looseVolume).2).1 ≠
          .ok (List.replicate 20 7) := by
  refine ⟨⟨tableNamed_namedOnce, by decide +kernel, by decide +kernel, by decide +kernel⟩, ?_,
    by decide +kernel, by decide +kernel⟩
  obtain ⟨hunique, hused⟩ := sampleVolume_consistent.owned
  exact ⟨hunique, fun hp => (hused hp).2⟩

end ZiqaKernel
