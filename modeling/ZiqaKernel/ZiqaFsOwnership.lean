/-
Ownership of blocks on a ZiqaFS volume.  Every inode is the root of a tree of
block references; a volume is in order when no block is referenced twice and
every referenced block is marked in the bitmap.
-/
import ZiqaKernel.ZiqaFsBlockMap

namespace ZiqaKernel

/-- Which slots of an inode with a given mode count as references.  All the
slots that `inode_get_block` follows count; the odd words of a double-indirect
block hold checksums, except in directories, where `inode_alloc_block` stores
block numbers in every word. -/
structure Layout where
  counts : UInt16 → Slot → Bool
  direct : ∀ m i, counts m (.direct i) = true
  indirect : ∀ m, counts m .indirect = true
  double : ∀ m, counts m .double = true
  single : ∀ m k, counts m (.single (2 * k)) = true
  level1 : ∀ m k, counts m (.level1 (2 * k)) = true
  level2 : ∀ m k j, counts m (.level2 (2 * k) (2 * j)) = true
  parent : ∀ m w v, counts m (.level2 w v) = true → counts m (.level1 w) = true
  checksums : ∀ m k, m ≠ inodeModeDir → counts m (.level1 (2 * k + 1)) = false

/-- The slots that `inode_get_block` follows: even words are block numbers and
odd words are checksums. -/
def pairLayout : Layout where
  counts _
    | .direct _ | .indirect | .double => true
    | .single w | .level1 w => w % 2 = 0
    | .level2 w v => w % 2 = 0 ∧ v % 2 = 0
  direct _ _ := rfl
  indirect _ := rfl
  double _ := rfl
  single _ k := by simp
  level1 _ k := by simp
  level2 _ k j := by simp
  parent _ w v h := by
    simp only [decide_eq_true_eq] at h ⊢
    exact h.1
  checksums _ k _ := by simp

theorem Layout.dataSlot (L : Layout) (m : UInt16) (l : Nat) : L.counts m (dataSlot l) = true := by
  unfold ZiqaKernel.dataSlot
  split_ifs
  · exact L.direct m _
  · exact L.single m _
  · exact L.level2 m _ _

def tree (L : Layout) (d : Disk) (x : Inode) (s : Slot) : UInt32 :=
  if L.counts x.mode s then refAt d x s else 0

def refs (L : Layout) (d : Disk) (inodes : UInt32 → Option Inode) (p : UInt32 × Slot) : UInt32 :=
  match inodes p.1 with
  | none => 0
  | some x => tree L d x p.2

/-- Whether bit `b` of the allocation bitmap is set. -/
def marked (d : Disk) (b : UInt32) : Prop :=
  bitSet (d.block bitmapBlock) b.toNat = true

instance (d : Disk) (b : UInt32) : Decidable (marked d b) :=
  inferInstanceAs (Decidable (_ = true))

def InUse (d : Disk) (b : UInt32) : Prop := 5 ≤ b.toNat ∧ marked d b

def Taken (d : Disk) (b : UInt32) : Prop := b.toNat < 5 ∨ marked d b

/-- The referenced blocks of a family of inodes are in use, and each of them
is referenced once. -/
def Owned (L : Layout) (d : Disk) (inodes : UInt32 → Option Inode) : Prop :=
  Exclusive (refs L d inodes) (InUse d)

def Reserved (fs : ZiqaFs) : Prop :=
  ∀ b : UInt32, b.toNat < 5 → fs.sb.firstDataBlock.toNat ≤ b.toNat → marked fs.device b

variable {L : Layout} {n : Nat} {d d' d'' : Disk} {x y : Inode} {b : UInt32}

theorem InUse.taken (h : InUse d b) : Taken d b := Or.inr h.2

theorem InUse.ne_bitmapBlock (h : InUse d b) : b ≠ bitmapBlock := by
  rintro rfl
  exact absurd h.1 (by decide)

theorem tree_of_counts {s : Slot} (h : L.counts x.mode s = true) : tree L d x s = refAt d x s := by
  rw [tree, if_pos h]

theorem refs_of_some {inodes : UInt32 → Option Inode} {id : UInt32}
    (h : inodes id = some x) (s : Slot) :
    refs L d inodes (id, s) = tree L d x s := by
  rw [refs, h]

theorem Owned.exclusive_tree {inodes : UInt32 → Option Inode} {id : UInt32}
    (h : Owned L d inodes) (hx : inodes id = some x) :
    Exclusive (tree L d x) (InUse d) where
  unique {s s'} hs heq := by
    rw [← refs_of_some hx] at hs
    rw [← refs_of_some hx, ← refs_of_some hx] at heq
    exact (Prod.mk.inj (h.unique hs heq)).2
  used {s} hs := by
    rw [← refs_of_some hx] at hs ⊢
    exact h.used hs

/-- Blocks below `n` are added to those in use, and the blocks that were taken
keep their contents. -/
structure Extends (n : Nat) (d d' : Disk) : Prop where
  sectors : d'.totalSectors = d.totalSectors
  upper : ∀ b, marked d' b → marked d b ∨ b.toNat < n
  marked : ∀ b, marked d b → marked d' b
  keeps : ∀ b, b ≠ bitmapBlock → Taken d b → d'.block b = d.block b

theorem Extends.refl (d : Disk) : Extends n d d :=
  ⟨rfl, fun _ h => Or.inl h, fun _ h => h, fun _ _ _ => rfl⟩

theorem Extends.taken (h : Extends n d d') {b : UInt32} (hb : Taken d b) : Taken d' b :=
  hb.imp_right (h.marked b)

theorem Extends.trans (h : Extends n d d') (h' : Extends n d' d'') : Extends n d d'' where
  sectors := h'.sectors.trans h.sectors
  upper b hb := (h'.upper b hb).elim (h.upper b) Or.inr
  marked b hb := h'.marked b (h.marked b hb)
  keeps b hne hb := by
    rw [h'.keeps b hne (h.taken hb), h.keeps b hne hb]

theorem marked_setBlock (d : Disk) {b : UInt32} (hb : b ≠ bitmapBlock)
    (contents : Block) (c : UInt32) :
    marked (d.setBlock b contents) c ↔ marked d c := by
  rw [marked, Disk.block_setBlock_ne _ _ hb.symm, marked]

theorem ne_bitmapBlock_of_not_taken (h : ¬ Taken d b) : b ≠ bitmapBlock := by
  rintro rfl
  exact h (Or.inl (by decide))

theorem Extends.setBlock (h : Extends n d d') {b : UInt32} (hb : ¬ Taken d b) (contents : Block) :
    Extends n d (d'.setBlock b contents) where
  sectors := h.sectors
  upper c hc := h.upper c ((marked_setBlock d' (ne_bitmapBlock_of_not_taken hb) contents c).mp hc)
  marked c hc :=
    (marked_setBlock d' (ne_bitmapBlock_of_not_taken hb) contents c).mpr (h.marked c hc)
  keeps c hne hc := by
    have hcb : c ≠ b := by
      rintro rfl
      exact hb hc
    rw [Disk.block_setBlock_ne _ _ hcb, h.keeps c hne hc]

/-- The blocks that the references of an inode reach are unchanged. -/
structure SameTree (L : Layout) (d d' : Disk) (x : Inode) : Prop where
  sectors : d'.totalSectors = d.totalSectors
  keeps : ∀ s, tree L d x s ≠ 0 → d'.block (tree L d x s) = d.block (tree L d x s)

theorem SameTree.keeps_refAt (h : SameTree L d d' x) {s : Slot}
    (hs : L.counts x.mode s = true) (hne : refAt d x s ≠ 0) :
    d'.block (refAt d x s) = d.block (refAt d x s) := by
  have hk := h.keeps s
  rw [tree_of_counts hs] at hk
  exact hk hne

theorem refAt_eq_of_pointers (hptr : ∀ s, s.isPointer = true → L.counts x.mode s = true →
      refAt d x s ≠ 0 → d'.block (refAt d x s) = d.block (refAt d x s))
    {s : Slot} (hs : L.counts x.mode s = true) : refAt d' x s = refAt d x s := by
  have hdouble : ∀ w, d'.wordOf x.doubleIndirect w = d.wordOf x.doubleIndirect w :=
    Disk.wordOf_congr (hptr .double rfl (L.double _))
  cases s with
  | direct i => rfl
  | indirect => rfl
  | double => rfl
  | single w => exact Disk.wordOf_congr (hptr .indirect rfl (L.indirect _)) w
  | level1 w => exact hdouble w
  | level2 w v =>
    change d'.wordOf (d'.wordOf _ w) v = d.wordOf (d.wordOf _ w) v
    rw [hdouble w]
    exact Disk.wordOf_congr (hptr (.level1 w) rfl (L.parent _ w v hs)) v

theorem SameTree.refAt_eq (h : SameTree L d d' x) {s : Slot}
    (hs : L.counts x.mode s = true) : refAt d' x s = refAt d x s :=
  refAt_eq_of_pointers (fun _ _ hcounts => h.keeps_refAt hcounts) hs

theorem SameTree.tree_eq (h : SameTree L d d' x) : tree L d' x = tree L d x := by
  funext s
  unfold ZiqaKernel.tree
  by_cases hs : L.counts x.mode s = true
  · rw [if_pos hs, if_pos hs, h.refAt_eq hs]
  · rw [if_neg hs, if_neg hs]

theorem SameTree.trans (h : SameTree L d d' x) (h' : SameTree L d' d'' x) : SameTree L d d'' x where
  sectors := h'.sectors.trans h.sectors
  keeps s hs := by
    have hk := h'.keeps s
    rw [h.tree_eq] at hk
    rw [hk hs, h.keeps s hs]

theorem SameTree.blockMap_eq (h : SameTree L d d' x) (l : Nat) :
    blockMap d' x l = blockMap d x l := by
  exact blockMap_congr h.sectors (h.keeps_refAt (s := .indirect) (L.indirect _))
    (h.keeps_refAt (s := .double) (L.double _)) fun k =>
      h.keeps_refAt (s := .level1 (2 * k)) (L.level1 _ k)

theorem Extends.sameTree (h : Extends n d d')
    (hx : Exclusive (tree L d x) (InUse d)) : SameTree L d d' x where
  sectors := h.sectors
  keeps _ hs := h.keeps _ (hx.used hs).ne_bitmapBlock (hx.used hs).taken

end ZiqaKernel
