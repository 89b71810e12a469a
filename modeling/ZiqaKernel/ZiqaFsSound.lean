/-
Volumes in order, and what the small steps of the file-system calls do to them:
storing an inode, writing a data or metadata block, taking and freeing an inode.
-/
import ZiqaKernel.ZiqaFsGrow

namespace ZiqaKernel

open Fallible (Spec)

structure Sound (fs : ZiqaFs) : Prop where
  healthy : Healthy fs
  owned : Owned wordLayout fs.device (liveInode fs.device)

/-- A volume in order that has the property `I`. -/
structure SoundIn (I : ZiqaFs → Prop) (fs : ZiqaFs) : Prop extends Sound fs where
  holds : I fs

variable {fs fs' : ZiqaFs} {x x' y : Inode} {id b : UInt32} {I : ZiqaFs → Prop}

theorem Sound.plain (h : Sound fs) : SoundIn (fun _ => True) fs :=
  ⟨h, trivial⟩

theorem Sound.ownTree (h : Sound fs) (hx : liveInode fs.device id = some x) : OwnTree fs x :=
  h.owned.exclusive_tree hx

variable {d : Disk} {inodes : UInt32 → Option Inode}

theorem Owned.pairs (h : Owned wordLayout d inodes) : Owned pairLayout d inodes := by
  have hrefs : ∀ p, refs pairLayout d inodes p ≠ 0 →
      refs pairLayout d inodes p = refs wordLayout d inodes p := by
    intro p hp
    unfold refs at hp ⊢
    cases hx : inodes p.1 with
    | none => rfl
    | some x =>
      simp only [hx] at hp ⊢
      have hcounts : pairLayout.counts x.mode p.2 = true := by
        by_contra hno
        rw [tree, if_neg hno] at hp
        exact hp rfl
      rw [tree_of_counts hcounts, tree_of_counts (wordLayout_of_pairLayout hcounts)]
  refine h.restrict hrefs fun p hp => ?_
  have heq := hrefs p hp
  rw [heq] at hp ⊢
  exact h.used hp

variable {L : Layout}

theorem unreferenced_of_lt (hx : Exclusive (tree L d x) (InUse d)) (hb : b.toNat < 5) :
    Unreferenced L d x b := by
  intro s hs heq
  have huse := (hx.used hs).1
  rw [heq] at huse
  omega

theorem Kept.loadInode_eq (h : Kept fs fs' x x') (hx : OwnTree fs x)
    (j : UInt32) : loadInode fs'.device j = loadInode fs.device j :=
  loadInode_congr h.rewrites.sectors (h.rewrites.keeps _ (by decide)
    (Or.inl (by decide)) (unreferenced_of_lt hx (by decide)))

theorem Kept.liveInode_eq (h : Kept fs fs' x x') (hx : OwnTree fs x) :
    liveInode fs'.device = liveInode fs.device := by
  funext j
  unfold liveInode
  rw [h.loadInode_eq hx]

theorem Sound.of_kept (h : Sound fs) (hx : liveInode fs.device id = some x)
    (hkept : Kept fs fs' x x) : Sound fs' where
  healthy := hkept.healthy h.healthy
  owned := by
    have howned := hkept.rewrites.owned h.owned hx
    rw [Function.update_eq_self_iff.mpr hx.symm] at howned
    rw [hkept.liveInode_eq (h.ownTree hx)]
    exact howned

theorem SoundIn.of_kept (h : SoundIn I fs) (hx : liveInode fs.device id = some x)
    (hkept : KeptIn I fs fs' x x) : SoundIn I fs' :=
  ⟨h.toSound.of_kept hx hkept.toKept, hkept.holds⟩

variable [Steady I]

theorem Healthy.setBlock (h : Healthy fs) (hb : b ≠ bitmapBlock) (buf : Block) :
    Healthy { fs with device := fs.device.setBlock b buf } :=
  h.step ⟨rfl, rfl⟩ rfl fun c hc =>
    Or.inl ((marked_setBlock fs.device hb buf c).mp hc)

theorem Sound.congr (h : Sound fs) (hdev : fs'.device = fs.device)
    (hgeo : SameGeometry fs fs') : Sound fs' where
  healthy := h.healthy.step hgeo (by rw [hdev]) fun b hb => Or.inl (hdev ▸ hb)
  owned := hdev ▸ h.owned

theorem liveInode_setBlock (d : Disk) (htab : b ≠ inodeTableBlock)
    (buf : Block) : liveInode (d.setBlock b buf) = liveInode d := by
  have hload : ∀ j, loadInode (d.setBlock b buf) j = loadInode d j := fun j =>
    loadInode_congr rfl (Disk.block_setBlock_ne _ _ htab.symm)
  funext j
  unfold liveInode
  rw [hload]

theorem Sound.setBlock (h : Sound fs) (hb : b.toNat < 5) (hbit : b ≠ bitmapBlock)
    (htab : b ≠ inodeTableBlock) (buf : Block) :
    Sound { fs with device := fs.device.setBlock b buf } where
  healthy := h.healthy.setBlock hbit buf
  owned := by
    change Owned wordLayout (fs.device.setBlock b buf) (liveInode _)
    rw [liveInode_setBlock _ htab]
    exact h.owned.setBlock hb hbit buf

theorem spec_writeMetadata (hb : b.toNat < 5)
    (hbit : b ≠ bitmapBlock) (htab : b ≠ inodeTableBlock) (buf : Block) :
    Spec (fun s => SoundIn I s ∧ liveInode s.device = inodes) (writeBlock b buf)
      (fun _ s => SoundIn I s ∧ liveInode s.device = inodes)
      (fun _ s => SoundIn I s ∧ liveInode s.device = inodes) := by
  refine ⟨fun s u s' hs h => ?_, fun s e s' hs h => ?_⟩
  · obtain ⟨-, rfl⟩ := writeBlock_eq_ok_iff.mp h
    exact ⟨⟨hs.1.toSound.setBlock hb hbit htab buf, Steady.setBlock buf hs.1.holds hbit htab⟩,
      (liveInode_setBlock _ htab buf).trans hs.2⟩
  · rw [run_writeBlock] at h
    split_ifs at h with hrange
    · simp at h
    · simp only [Prod.mk.injEq] at h
      exact h.2 ▸ hs

theorem flushSuperblock_spec :
    Spec (SoundIn I) flushSuperblock (fun _ => SoundIn I) (fun _ => SoundIn I) := by
  refine Spec.bind Spec.gets fun sb => ?_
  refine Spec.pointwise fun s hs => ?_
  exact (spec_writeMetadata (by decide) (by decide) (by decide) _).consequence
    (by rintro _ rfl; exact ⟨hs.1, rfl⟩) (fun _ _ h => h.1) (fun _ _ h => h.1)

theorem readInode_spec {P : ZiqaFs → Prop} : Spec P (readInode id)
      (fun x s => P s ∧ liveInode s.device id = some x) (fun _ => P) := by
  refine ⟨fun s x s' hs h => ?_, fun s e s' hs h => ?_⟩
  · rw [readInode_run, Prod.mk.injEq] at h
    obtain ⟨hload, rfl⟩ := h
    exact ⟨hs, liveInode_eq_some_iff.mpr hload⟩
  · rw [readInode_run, Prod.mk.injEq] at h
    exact h.2 ▸ hs

/-- The device after one slot of the inode table has been overwritten. -/
def Disk.withSlot (d : Disk) (id : UInt32) (bytes : Nat → UInt8) : Disk :=
  d.setBlock inodeTableBlock (setSlot (d.block inodeTableBlock) id bytes)

theorem liveInode_withSlot (d : Disk) (id : UInt32) (bytes : Nat → UInt8) :
    liveInode (d.withSlot id bytes) = Function.update (liveInode d) id
      (liveInode (d.withSlot id bytes) id) := by
  funext j
  by_cases hj : j = id
  · rw [hj, Function.update_self]
  · have hload : loadInode (d.withSlot id bytes) j = loadInode d j :=
      loadInode_ne hj rfl (Disk.block_setBlock_self _ _ _)
    rw [Function.update_of_ne hj]
    unfold liveInode
    rw [hload]

/-- Overwriting a slot leaves a volume in order when the family with the new
entry is owned. -/
theorem Sound.withSlot {bytes : Nat → UInt8} (hh : Healthy fs)
    (howned : Owned wordLayout fs.device (Function.update (liveInode fs.device)
      id (liveInode (fs.device.withSlot id bytes) id))) :
    Sound { fs with device := fs.device.withSlot id bytes } where
  healthy := hh.setBlock (by decide) _
  owned := by
    change Owned wordLayout (fs.device.withSlot id bytes) (liveInode _)
    rw [liveInode_withSlot]
    exact howned.setBlock (by decide) (by decide) _

theorem Owned.update_empty (h : Owned L d inodes) (id : UInt32)
    (entry : Option Inode) (hempty : ∀ z, entry = some z → ∀ s, refAt d z s = 0) :
    Owned L d (Function.update inodes id entry) := by
  have hrefs : ∀ p, refs L d (Function.update inodes id entry) p ≠ 0 →
      refs L d (Function.update inodes id entry) p = refs L d inodes p := by
    intro p hp
    unfold refs at hp ⊢
    by_cases hid : p.1 = id
    · rw [hid, Function.update_self] at hp
      cases entry with
      | none => exact absurd rfl hp
      | some z =>
        simp only [tree, hempty z rfl, ite_self] at hp
        exact absurd rfl hp
    · rw [Function.update_of_ne hid]
  refine h.restrict hrefs fun p hp => ?_
  have heq := hrefs p hp
  rw [heq] at hp ⊢
  exact h.used hp

theorem refAt_eq_zero (hblocks : ∀ i, x.blocks i = 0)
    (hind : x.indirect = 0) (hdbl : x.doubleIndirect = 0) (s : Slot) :
    refAt d x s = 0 := by
  cases s with
  | direct i => exact hblocks i
  | indirect => exact hind
  | double => exact hdbl
  | single w => simp [refAt, hind]
  | level1 w => simp [refAt, hdbl]
  | level2 w v => simp [refAt, hdbl]

theorem writeInode_run (hid : ¬ id ≥ inodeCount) (hfit : SlotFits id)
    (hrange : fs.device.InRange inodeTableBlock) :
    (writeInode id y).run fs = (.ok (),
      { fs with device := fs.device.withSlot id y.stamped.toBytes }) := by
  rw [writeInode, if_neg hid, Fallible.run_bind_of_ok (readBlock_run_ok hrange),
    if_pos hfit, writeBlock_run_ok hrange]
  rfl

structure Inode.SameRefs (y x : Inode) : Prop where
  mode : y.mode = x.mode
  blocks : y.blocks = x.blocks
  indirect : y.indirect = x.indirect
  double : y.doubleIndirect = x.doubleIndirect

theorem Inode.SameRefs.stamped (h : y.SameRefs x) : y.stamped.SameRefs x :=
  ⟨h.mode, h.blocks, h.indirect, h.double⟩

theorem Inode.SameRefs.tree_eq (h : y.SameRefs x) : tree L d y = tree L d x :=
  tree_congr h.mode h.blocks h.indirect h.double

theorem Inode.SameRefs.refAt_eq (h : y.SameRefs x) (s : Slot) : refAt d y s = refAt d x s := by
  cases s <;> simp only [refAt, h.blocks, h.indirect, h.double]

theorem writeInode_spec (hs : Sound fs) (hx : liveInode fs.device id = some x)
    (hkept : KeptIn I fs fs' x x') (hy : y.SameRefs x') :
    Spec (· = fs') (writeInode id y) (fun _ s => SoundIn I s ∧ liveInode s.device =
        Function.update (liveInode fs.device) id (some y.stamped) ∧
          ∀ b, DataBlockOf fs' x' b → DataBlockOf s y.stamped b)
      (fun _ _ => False) := by
  have hlive := hkept.liveInode_eq (hs.ownTree hx)
  obtain ⟨hid, hfit, hrange, -, -⟩ :=
    loadInode_eq_ok_iff.mp (liveInode_eq_some_iff.mp hx)
  have hrange' : fs'.device.InRange inodeTableBlock :=
    (Disk.inRange_congr hkept.rewrites.sectors _).mpr hrange
  have hrun := writeInode_run (y := y) hid hfit hrange'
  have hstored : (liveInode fs'.device id).isSome = true := by
    rw [hlive, hx]
    rfl
  have hholds := Steady.store y hkept.holds hstored
  rw [hrun] at hholds
  refine Spec.of_run_ok hrun ?_
  have hself : liveInode (fs'.device.withSlot id y.stamped.toBytes) id = some y.stamped :=
    liveInode_eq_some_iff.mpr (loadInode_self hid hfit hrange' ⟨_, Disk.block_setBlock_self _ _ _⟩)
  refine ⟨⟨Sound.withSlot (hkept.healthy hs.healthy) ?_, hholds⟩, ?_, ?_⟩
  · rw [hself, hlive]
    exact (hkept.rewrites.owned hs.owned hx).update_congr hy.stamped.tree_eq
  · change liveInode (fs'.device.withSlot id _) = _
    rw [liveInode_withSlot, hself, hlive]
  · rintro b ⟨hb, t, hcounts, hdata, href⟩
    refine ⟨hb, t, hy.mode ▸ hcounts, hdata, ?_⟩
    change refAt (fs'.device.withSlot id _) _ t = b
    rw [hy.stamped.refAt_eq, ← href]
    exact (sameTree_setBlock (by decide) hkept.ownTree _).refAt_eq hcounts

theorem pointer_setData (hx : OwnTree fs x) (hb : DataBlockOf fs x b)
    (buf : Block) {s : Slot} (hpointer : s.isPointer = true)
    (hs : wordLayout.counts x.mode s = true) (hne : refAt fs.device x s ≠ 0) :
    (fs.device.setBlock b buf).block (refAt fs.device x s) =
      fs.device.block (refAt fs.device x s) := by
  obtain ⟨-, t, hcounts, hdata, rfl⟩ := hb
  refine Disk.block_setBlock_ne _ _ (hx.refAt_ne hs hcounts hne ?_)
  rintro rfl
  rw [hdata] at hpointer
  cases hpointer

theorem Kept.setData (hx : OwnTree fs x) (hb : DataBlockOf fs x b) (buf : Block) :
    Kept fs { fs with device := fs.device.setBlock b buf } x x := by
  have hrefs : ∀ s, wordLayout.counts x.mode s = true →
      refAt (fs.device.setBlock b buf) x s = refAt fs.device x s := fun s hs =>
    refAt_eq_of_pointers (fun s hpointer hs => pointer_setData hx hb buf hpointer hs) hs
  obtain ⟨hne, t, hcounts, hdata, rfl⟩ := hb
  have huse := hx.inUse_refAt hcounts hne
  have htree : tree wordLayout (fs.device.setBlock (refAt fs.device x t) buf) x =
      tree wordLayout fs.device x := by
    funext s
    unfold tree
    split_ifs with hs
    · exact hrefs s hs
    · rfl
  refine ⟨Rewrites.of_slots hx rfl rfl (fun _ => t) (fun s _ => ?_)
    (fun c hc => ?_) (fun c hc => ?_) (fun c hne _ href => ?_), ⟨rfl, rfl⟩⟩
  · rw [htree]
    exact Or.inl rfl
  · exact Or.inl ((marked_setBlock _ huse.ne_bitmapBlock _ _).mp hc)
  · exact (marked_setBlock _ huse.ne_bitmapBlock _ _).mpr hc
  · refine Disk.block_setBlock_ne _ _ ?_
    rintro rfl
    rw [← tree_of_counts hcounts] at hne
    exact href t (by rwa [tree_of_counts hcounts]) (tree_of_counts hcounts)

theorem spec_writeKept {buf : Block} (hI : I fs) (hx : OwnTree fs x) (hb : InUse fs.device b)
    (h : Kept fs { fs with device := fs.device.setBlock b buf } x x) :
    Spec (· = fs) (writeBlock b buf) (fun _ s => KeptIn I fs s x x)
      (fun _ s => KeptIn I fs s x x) := by
  have hrun := run_writeBlock b buf fs
  by_cases hrange : fs.device.InRange b
  · rw [if_pos hrange] at hrun
    exact Spec.of_run_ok hrun ⟨h, Steady.setInUse buf hI hb⟩
  · rw [if_neg hrange] at hrun
    exact Spec.of_run_error hrun (.refl hx hI)

theorem writeData_spec (hI : I fs) (hx : OwnTree fs x) (hb : DataBlockOf fs x b) (buf : Block) :
    Spec (· = fs) (writeBlock b buf) (fun _ s => KeptIn I fs s x x)
      (fun _ s => KeptIn I fs s x x) :=
  spec_writeKept hI hx (hb.inUse hx) (Kept.setData hx hb buf)

theorem DataBlockOf.of_blockMap {l : Nat} {p : UInt32 × UInt32}
    (h : blockMap fs.device x l = .ok p) (hne : p.1 ≠ 0) :
    DataBlockOf fs x p.1 :=
  ⟨hne, dataSlot l, wordLayout.dataSlot _ l, isPointer_dataSlot l, (blockMap_eq_ok h).1.symm⟩

/-- One data block of the file `x` has been replaced, by contents that `R` relates
to the old ones. -/
def BlockEdited (fs s : ZiqaFs) (x : Inode) (R : Block → Block → Prop) : Prop :=
  ∃ l p buf, blockMap fs.device x l = .ok p ∧ p.1 ≠ 0 ∧ R (fs.device.block p.1) buf ∧
    s = { fs with device := fs.device.setBlock p.1 buf }

theorem BlockEdited.kept {s : ZiqaFs} {R : Block → Block → Prop}
    (h : BlockEdited fs s x R) (hI : I fs) (hx : OwnTree fs x) : KeptIn I fs s x x := by
  obtain ⟨l, p, buf, hmap, hne, -, rfl⟩ := h
  have hdata := DataBlockOf.of_blockMap hmap hne
  exact ⟨Kept.setData hx hdata buf, Steady.setInUse buf hI (hdata.inUse hx)⟩

theorem spec_editBlock {l : Nat} {q : UInt32 × UInt32} {R : Block → Block → Prop}
    {buf : Block} (hmap : blockMap fs.device x l = .ok q) (hne : q.1 ≠ 0)
    (hbuf : R (fs.device.block q.1) buf) :
    Spec (· = fs) (writeBlock q.1 buf) (fun _ s => BlockEdited fs s x R) (fun _ s => s = fs) := by
  have hrun := run_writeBlock q.1 buf fs
  by_cases hrange : fs.device.InRange q.1
  · rw [if_pos hrange] at hrun
    exact Spec.of_run_ok hrun ⟨l, q, buf, hmap, hne, hbuf, rfl⟩
  · rw [if_neg hrange] at hrun
    exact Spec.of_run_error hrun rfl

theorem inodeGetBlock_spec {P : ZiqaFs → Prop} {l : Nat} : Spec P (inodeGetBlock x l)
      (fun p s => P s ∧ blockMap s.device x l = .ok p) (fun _ => P) := by
  refine ⟨fun s p s' hs h => ?_, fun s e s' hs h => ?_⟩
  · rw [inodeGetBlock_run, Prod.mk.injEq] at h
    obtain ⟨hmap, rfl⟩ := h
    exact ⟨hs, hmap⟩
  · rw [inodeGetBlock_run, Prod.mk.injEq] at h
    exact h.2 ▸ hs

theorem spec_writeBlock_run (hrange : fs.device.InRange b) (buf : Block) :
    Spec (· = fs) (writeBlock b buf) (fun _ s => s = { fs with device := fs.device.setBlock b buf })
      (fun _ _ => False) :=
  Spec.of_run_ok (writeBlock_run_ok hrange buf) rfl

/-- From `fs` to `s` the free slot `id` has been given to a new inode. -/
structure SlotTaken (fs s : ZiqaFs) (id : UInt32) (y : Inode) : Prop where
  found : inodeFindFree (fs.device.block inodeTableBlock) inodeCount.toNat 136 1 = some id.toNat
  fits : SlotFits id
  state : s = { device := fs.device.withSlot id y.stamped.toBytes
                sb := { fs.sb with freeInodes := pred32 fs.sb.freeInodes } }

theorem allocInode_exact {mode : UInt16} {now : UInt32} (hh : Healthy fs) :
    Spec (· = fs) (allocInode mode now) (fun id s => SlotTaken fs s id (freshInode mode now))
      (fun _ s => s = fs) := by
  have hrange := hh.inRange inodeTableBlock (Or.inl (by decide))
  refine (Spec.of_run_ok (E := fun _ s => s = fs) (readBlock_run_ok hrange)
    (Q := fun table s => s = fs ∧ table = fs.device.block inodeTableBlock)
    ⟨rfl, rfl⟩).bind fun table => ?_
  refine Spec.assume fun htable => ?_
  subst htable
  refine (Spec.ofOption (E := fun _ s => s = fs) fun _ h => h).bind fun i => ?_
  refine Spec.assume fun hfind => ?_
  have hnat : (UInt32.ofNat i).toNat = i := by
    have hcount : i < 32 := (inodeFindFree_some hfind).2.1
    rw [UInt32.toNat_ofNat']
    omega
  refine Spec.ite (fun hfit => ?_) fun _ => Spec.fail fun s h => h
  generalize UInt32.ofNat i = id at hnat hfit ⊢
  subst hnat
  refine (spec_writeBlock_run hrange _).andThen (fun _ _ h => h.elim) fun _ => ?_
  refine Spec.bind (Spec.modify (Q := fun _ s => SlotTaken fs s id (freshInode mode now)) ?_)
    fun _ => Spec.pure fun _ h => h
  rintro s rfl
  exact ⟨hfind, hfit, rfl⟩

theorem SlotTaken.live {s : ZiqaFs} (h : SlotTaken fs s id y) (hh : Healthy fs) :
    liveInode (fs.device.withSlot id y.stamped.toBytes) id = some y.stamped := by
  have hcount : id.toNat < 32 := (inodeFindFree_some h.found).2.1
  have hid : ¬ id ≥ inodeCount := by
    rw [ge_iff_le, UInt32.le_iff_toNat_le]
    exact Nat.not_le.mpr hcount
  exact liveInode_eq_some_iff.mpr (loadInode_self hid h.fits
    (hh.inRange _ (Or.inl (by decide))) ⟨_, Disk.block_setBlock_self _ _ _⟩)

/-- `alloc_inode` puts an inode without references into its slot.  Should the
slot hold a live inode whose checksum happens to end in a zero byte, that inode
is lost, and with it its references. -/
theorem allocInode_spec {mode : UInt16} {now : UInt32} (hs : Sound fs) :
    Spec (· = fs) (allocInode mode now) (fun id s => Sound s ∧ liveInode s.device =
        Function.update (liveInode fs.device) id (some (freshInode mode now).stamped))
      (fun _ => Sound) := by
  refine (allocInode_exact hs.healthy).consequence (fun _ h => h) (fun id s h => ?_)
    fun _ _ h => h ▸ hs
  have hself := h.live hs.healthy
  rw [h.state]
  constructor
  · refine (Sound.withSlot hs.healthy (hs.owned.update_empty id _ fun z hz => ?_)).congr rfl
      ⟨rfl, rfl⟩
    rw [hself, Option.some.injEq] at hz
    subst hz
    exact refAt_eq_zero (fun _ => rfl) rfl rfl
  · rw [liveInode_withSlot]
    exact congrArg _ hself

end ZiqaKernel
