/-
The inode table: what storing an inode changes, and what it leaves alone.
-/
import ZiqaKernel.ZiqaFsRead

namespace ZiqaKernel

open Disk Function

variable {L : Layout} {d d' : Disk} {x x' : Inode} {id : UInt32}

/-- The inode as `write_inode` stores it. -/
def Inode.stamped (x : Inode) : Inode :=
  { x with checksum := calculateInodeChecksum x }

theorem slotInode_setSlot_self (table : Block) (hfit : SlotFits id)
    (x : Inode) : slotInode (setSlot table id x.toBytes) id = x := by
  apply Inode.ofBytes_eq
  intro k hk
  exact Image.get_splice_inside _ _ hk hfit

theorem slotInode_setSlot_ne (table : Block) {j : UInt32} (hne : j ≠ id) (bytes : Nat → UInt8) :
    slotInode (setSlot table id bytes) j = slotInode table j := by
  have hnat : j.toNat ≠ id.toNat := fun h => hne (UInt32.toNat_inj.mp h)
  apply Inode.ofBytes_congr
  intro k hk
  apply Image.get_splice_outside
  omega

theorem writeInode_ok {fs fs' : ZiqaFs} {u : Unit} (h : (writeInode id x).run fs = (.ok u, fs')) :
    ¬ id ≥ inodeCount ∧ SlotFits id ∧ fs.device.InRange inodeTableBlock ∧ fs' = { fs with
        device := fs.device.setBlock inodeTableBlock
          (setSlot (fs.device.block inodeTableBlock) id x.stamped.toBytes) } := by
  unfold writeInode at h
  by_cases hid : id ≥ inodeCount
  · simp [hid, err] at h
  · rw [if_neg hid, Fallible.run_bind_eq_ok_iff] at h
    obtain ⟨table, fs1, hread, h⟩ := h
    obtain ⟨hrange, rfl, rfl⟩ := readBlock_eq_ok_iff.mp hread
    by_cases hfit : SlotFits id
    · rw [if_pos hfit] at h
      obtain ⟨-, rfl⟩ := writeBlock_eq_ok_iff.mp h
      exact ⟨hid, hfit, hrange, rfl⟩
    · simp [hfit, faulted] at h

theorem loadInode_eq_ok_iff : loadInode d id = .ok x ↔
    ¬ id ≥ inodeCount ∧ SlotFits id ∧ d.InRange inodeTableBlock ∧
      x = slotInode (d.block inodeTableBlock) id ∧
      x.checksum = calculateInodeChecksum x := by
  unfold loadInode load
  by_cases hid : id ≥ inodeCount
  · simp [hid]
  by_cases hrange : d.InRange inodeTableBlock
  · by_cases hfit : SlotFits id
    · simp only [hid, ↓reduceIte, hrange, hfit, ite_not, not_false_eq_true, true_and]
      constructor
      · intro h
        split_ifs at h with hsum
        rw [Except.ok.injEq] at h
        exact ⟨h.symm, h ▸ hsum⟩
      · rintro ⟨rfl, hsum⟩
        rw [if_pos hsum]
    · simp [hid, hrange, hfit]
  · simp [hid, hrange]

theorem loadInode_self (hid : ¬ id ≥ inodeCount) (hfit : SlotFits id)
    (hrange : d.InRange inodeTableBlock)
    (htable : ∃ table, d.block inodeTableBlock =
      setSlot table id x.stamped.toBytes) : loadInode d id = .ok x.stamped := by
  obtain ⟨table, htable⟩ := htable
  unfold loadInode
  rw [if_neg hid, load, if_pos hrange]
  simp only
  rw [if_pos hfit, htable, slotInode_setSlot_self table hfit, if_neg]
  exact fun hne => hne rfl

theorem loadInode_ne {j : UInt32} (hne : j ≠ id) {bytes : Nat → UInt8}
    (hsec : d'.totalSectors = d.totalSectors)
    (htable : d'.block inodeTableBlock = setSlot (d.block inodeTableBlock) id bytes) :
    loadInode d' j = loadInode d j := by
  unfold loadInode load
  by_cases hrange : d.InRange inodeTableBlock
  · simp only [inRange_congr hsec, hrange, ↓reduceIte, htable, slotInode_setSlot_ne _ hne]
  · simp only [inRange_congr hsec, hrange, ↓reduceIte]

theorem loadInode_congr {j : UInt32} (hsec : d'.totalSectors = d.totalSectors)
    (htable : d'.block inodeTableBlock = d.block inodeTableBlock) :
    loadInode d' j = loadInode d j := by
  unfold loadInode
  rw [load_congr hsec htable]

theorem liveInode_eq_some_iff : liveInode d id = some x ↔ loadInode d id = .ok x := by
  unfold liveInode
  cases loadInode d id with
  | error e => simp
  | ok y => simp

theorem sameTree_setBlock {b : UInt32} (hb : b.toNat < 5)
    (hx : Exclusive (tree L d x) (InUse d)) (buf : Block) :
    SameTree L d (d.setBlock b buf) x where
  sectors := rfl
  keeps s hs := by
    apply block_setBlock_ne
    intro heq
    have huse := (hx.used hs).1
    rw [heq] at huse
    omega

variable {inodes : UInt32 → Option Inode}

theorem Owned.setBlock {b : UInt32}
    (h : Owned L d inodes) (hb : b.toNat < 5) (hne : b ≠ bitmapBlock)
    (buf : Block) : Owned L (d.setBlock b buf) inodes := by
  have hrefs : ∀ p, refs L (d.setBlock b buf) inodes p = refs L d inodes p := by
    intro p
    unfold refs
    cases hx : inodes p.1 with
    | none => rfl
    | some x =>
      simp only [(sameTree_setBlock hb (h.exclusive_tree hx) buf).tree_eq]
  refine h.restrict (fun p _ => hrefs p) fun p hp => ?_
  rw [hrefs] at hp ⊢
  exact ⟨(h.used hp).1, (marked_setBlock d hne buf _).mpr (h.used hp).2⟩

theorem tree_congr {y : Inode} (hmode : y.mode = x.mode)
    (hblocks : y.blocks = x.blocks) (hind : y.indirect = x.indirect)
    (hdbl : y.doubleIndirect = x.doubleIndirect) :
    tree L d y = tree L d x := by
  funext s
  unfold tree
  rw [hmode]
  cases s <;> simp only [refAt, hblocks, hind, hdbl]

theorem Owned.update_congr {y : Inode}
    (h : Owned L d (update inodes id (some x)))
    (hy : tree L d y = tree L d x) :
    Owned L d (update inodes id (some y)) := by
  have hrefs : refs L d (update inodes id (some y)) =
      refs L d (update inodes id (some x)) := by
    funext p
    unfold refs
    by_cases hp : p.1 = id
    · simp only [hp, update_self, hy]
    · simp only [update_of_ne hp]
  unfold Owned
  rw [hrefs]
  exact h

/-- The device after the inode and the superblock have been stored. -/
def stored (d : Disk) (id : UInt32) (y : Inode) (sb : Block) : Disk :=
  (d.setBlock inodeTableBlock (setSlot (d.block inodeTableBlock) id y.stamped.toBytes)).setBlock
      superblockBlock sb

theorem stored_table (d : Disk) (id : UInt32) (y : Inode) (sb : Block) :
    (stored d id y sb).block inodeTableBlock =
      setSlot (d.block inodeTableBlock) id y.stamped.toBytes := by
  rw [stored, block_setBlock_ne _ _ (by decide), block_setBlock_self]

variable (sb : Block)

theorem loadInode_stored_self (hid : ¬ id ≥ inodeCount)
    (hfit : SlotFits id) (hrange : d.InRange inodeTableBlock) (y : Inode) :
    loadInode (stored d id y sb) id = .ok y.stamped :=
  loadInode_self hid hfit hrange ⟨_, stored_table d id y sb⟩

theorem loadInode_stored_ne {j : UInt32} (hne : j ≠ id)
    (y : Inode) : loadInode (stored d id y sb) j = loadInode d j :=
  loadInode_ne hne rfl (stored_table d id y sb)

theorem sameTree_stored (y : Inode) (hx : Exclusive (tree L d x) (InUse d)) :
    SameTree L d (stored d id y sb) x where
  sectors := rfl
  keeps s hs := by
    have huse := (hx.used hs).1
    rw [stored, block_setBlock_ne, block_setBlock_ne]
    · rintro heq
      rw [heq] at huse
      exact absurd huse (by decide)
    · rintro heq
      rw [heq] at huse
      exact absurd huse (by decide)

theorem Owned.stored (h : Owned L d inodes)
    (y : Inode) (sb : Block) : Owned L (stored d id y sb) inodes :=
  (h.setBlock (by decide) (by decide) _).setBlock (by decide) (by decide) sb

theorem Reserved.stored {fs : ZiqaFs} (h : Reserved fs) (y : Inode) (sb : Block) :
    Reserved { fs with device := ZiqaKernel.stored fs.device id y sb } := by
  intro b hb hfirst
  unfold ZiqaKernel.stored
  rw [marked_setBlock _ (by decide), marked_setBlock _ (by decide)]
  exact h b hb hfirst

end ZiqaKernel
