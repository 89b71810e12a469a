/-
What truncation does to the blocks behind the new end of a file.  `truncate` shortens the
file, but it takes no block out of the block map of the inode and gives none back: it frees
the tail of a file exactly when there is nothing to free.
-/
import ZiqaKernel.ZiqaFsVector

namespace ZiqaKernel

open Fallible (Spec)

variable {fs fs' s : ZiqaFs} {d d' : Disk} {x y : Inode} {id now b : UInt32} {l n newSize : Nat}

/-- `inode_get_block` finds block `b` for logical block `l`. -/
def MapsTo (d : Disk) (x : Inode) (l : Nat) (b : UInt32) : Prop :=
  b ≠ 0 ∧ ∃ sum, blockMap d x l = .ok (b, sum)

/-- The logical blocks from `n` on that have a block. -/
def mappedFrom (d : Disk) (x : Inode) (n : Nat) : Set Nat :=
  {l | n ≤ l ∧ ∃ b, MapsTo d x l b}

theorem MapsTo.lt_maxBlocks (h : MapsTo d x l b) : l < maxBlocks := by
  obtain ⟨-, sum, hmap⟩ := h
  exact (blockMap_eq_ok hmap).2

theorem finite_mappedFrom (d : Disk) (x : Inode) (n : Nat) : (mappedFrom d x n).Finite := by
  apply (Set.finite_Iio maxBlocks).subset
  rintro l ⟨-, b, hb⟩
  exact hb.lt_maxBlocks

/-- The logical blocks from `n` on, and no others, have been unmapped, and their blocks
have been given back to the bitmap and to the counter.  The inode was `x` and is `y`. -/
structure TailReleased (fs fs' : ZiqaFs) (x y : Inode) (n : Nat) : Prop where
  lower : ∀ l < n, blockMap fs'.device y l = blockMap fs.device x l
  unmapped : ∀ l b, n ≤ l → ¬ MapsTo fs'.device y l b
  bits : ∀ b, marked fs'.device b ↔ marked fs.device b ∧ ¬ ∃ l, n ≤ l ∧ MapsTo fs.device x l b
  counter : fs'.sb.freeBlocks.toNat = fs.sb.freeBlocks.toNat + (mappedFrom fs.device x n).ncard

theorem TailReleased.nothing_mapped (h : TailReleased fs fs' x y n) (hsb : fs'.sb = fs.sb)
    (hl : n ≤ l) : ¬ MapsTo fs.device x l b := by
  intro hb
  have hpos : 0 < (mappedFrom fs.device x n).ncard :=
    (Set.ncard_pos (finite_mappedFrom _ _ _)).mpr ⟨l, hl, b, hb⟩
  have hcounter := h.counter
  rw [hsb] at hcounter
  omega

theorem tailReleased_of_same (hmap : ∀ l, blockMap fs'.device y l = blockMap fs.device x l)
    (hbits : ∀ b, marked fs'.device b ↔ marked fs.device b) (hsb : fs'.sb = fs.sb)
    (hnone : ∀ l b, n ≤ l → ¬ MapsTo fs.device x l b) : TailReleased fs fs' x y n where
  lower l _ := hmap l
  unmapped l b hl := by
    unfold MapsTo
    rw [hmap l]
    exact hnone l b hl
  bits b := by
    rw [hbits b, and_iff_left]
    rintro ⟨l, hl, hb⟩
    exact hnone l b hl hb
  counter := by
    have hempty : mappedFrom fs.device x n = ∅ := by
      apply Set.eq_empty_of_forall_notMem
      rintro l ⟨hl, b, hb⟩
      exact hnone l b hl hb
    rw [hempty, Set.ncard_empty, hsb, Nat.add_zero]

variable {u : Unit}

theorem truncate_sb (h : (truncate now id newSize).run fs = (.ok u, fs')) :
    fs'.sb = fs.sb := by
  obtain ⟨x, fs1, fs2, sb, -, hrounds, htail, -, -, -, rfl⟩ := truncate_ok h
  have hfirst : fs1.sb = fs.sb := by
    refine (Spec.forM (I := fun s => s.sb = fs.sb) (E := fun _ _ => True) _
      fun l _ => ⟨fun s u s' hs h => ?_, fun _ _ _ _ _ => trivial⟩).ok _ _ _ rfl hrounds
    obtain ⟨p, -, rfl | ⟨-, -, buf, rfl⟩ | ⟨-, -, -, -, rfl⟩⟩ := truncateRound_ok h
    · exact hs
    · exact hs
    · exact hs
  obtain rfl | ⟨p, -, -, -, -, rfl⟩ := zeroTail_ok htail
  · exact hfirst
  · exact hfirst

theorem truncateRounds_none {count : Nat}
    (hnone : ∀ l b, n ≤ l → ¬ MapsTo fs.device x l b)
    (h : ((List.range' n count).forM (truncateRound x)).run fs = (.ok u, fs')) : fs' = fs := by
  refine (Spec.forM (I := fun s => s = fs) (E := fun _ _ => True) _
    fun l hl => ⟨fun s u s' hs hround => ?_, fun _ _ _ _ _ => trivial⟩).ok _ _ _ rfl h
  subst hs
  have hno : ∀ p, blockMap s.device x l = .ok p → p.1 = 0 := by
    intro p hmap
    by_contra hp
    exact hnone l p.1 (List.left_le_of_mem_range' hl) ⟨hp, p.2, hmap⟩
  obtain ⟨p, hmap, rfl | ⟨-, hp, -⟩ | ⟨-, hp, -⟩⟩ := truncateRound_ok hround
  · rfl
  · exact absurd (hno p hmap) hp
  · exact absurd (hno p hmap) hp

theorem zeroTail_kept (hx : OwnTree s x)
    (h : (zeroTail x newSize).run s = (.ok u, fs')) :
    OwnTree fs' x ∧ (∀ l, blockMap fs'.device x l = blockMap s.device x l) ∧
      ∀ b, marked fs'.device b ↔ marked s.device b := by
  obtain rfl | ⟨p, -, hmap, hp, -, rfl⟩ := zeroTail_ok h
  · exact ⟨hx, fun _ => rfl, fun _ => Iff.rfl⟩
  have hdata : DataBlockOf s x p.1 := .of_blockMap hmap hp
  have huse : InUse s.device p.1 := by
    rw [(blockMap_eq_ok hmap).1] at hp ⊢
    exact hx.inUse_refAt (wordLayout.dataSlot _ _) hp
  exact ⟨(Kept.setData hx hdata _).ownTree, fun l => blockMap_setData hx hdata,
    fun b => marked_setBlock _ huse.ne_bitmapBlock _ b⟩

theorem marked_stored (d : Disk) (id : UInt32) (y : Inode) (sb : Block) (b : UInt32) :
    marked (stored d id y sb) b ↔ marked d b := by
  unfold stored
  rw [marked_setBlock _ (by decide), marked_setBlock _ (by decide)]

/-- A truncation never releases a block: had it released the tail of a file, there was
none. -/
theorem truncate_nothing_mapped (h : (truncate now id newSize).run fs = (.ok (), fs'))
    (hreleased : TailReleased fs fs' x y n) (hl : n ≤ l) : ¬ MapsTo fs.device x l b :=
  hreleased.nothing_mapped (truncate_sb h) hl

/-- Where nothing is mapped behind the new end of a file whose blocks are its own, the
truncation leaves its block map as it is. -/
theorem truncate_tailReleased (hload : loadInode fs.device id = .ok x) (hx : OwnTree fs x)
    (hsize : newSize ≤ x.size.toNat) (h : (truncate now id newSize).run fs = (.ok (), fs'))
    (hnone : ∀ l b, blocksFor newSize ≤ l → ¬ MapsTo fs.device x l b) :
    ∃ y, loadInode fs'.device id = .ok y ∧ TailReleased fs fs' x y (blocksFor newSize) := by
  have hsb := truncate_sb h
  obtain ⟨x', fs1, fs2, sb, hload', hrounds, htail, hid, hfit, hrange, rfl⟩ := truncate_ok h
  obtain rfl : x = x' := Except.ok.inj (hload.symm.trans hload')
  have hbound := x.size.toNat_lt
  have hblocks : blocksFor newSize % 2 ^ 32 = blocksFor newSize :=
    Nat.mod_eq_of_lt (by unfold blocksFor; omega)
  rw [hblocks] at hrounds
  obtain rfl := truncateRounds_none hnone hrounds
  obtain ⟨hx2, hmap, hbits⟩ := zeroTail_kept hx htail
  have hstored : SameTree wordLayout fs2.device
      (stored fs2.device id (resized x now newSize) sb) x := sameTree_stored sb _ hx2
  refine ⟨_, loadInode_stored_self sb hid hfit hrange _, tailReleased_of_same (fun l => ?_)
    (fun b => (marked_stored _ _ _ _ b).trans (hbits b)) hsb hnone⟩
  change blockMap (stored _ _ _ _) x l = _
  rw [hstored.blockMap_eq, hmap]

/-- A file is cut to a smaller size.  On every volume the blocks behind the new end are
released only if there are none, and where the blocks of the file are its own, exactly if
there are none. -/
theorem tailReleased_iff (hload : loadInode fs.device id = .ok x)
    (hsize : newSize ≤ x.size.toNat)
    (h : (truncate now id newSize).run fs = (.ok (), fs')) :
    ((∃ y, loadInode fs'.device id = .ok y ∧ TailReleased fs fs' x y (blocksFor newSize)) →
      ∀ l b, blocksFor newSize ≤ l → ¬ MapsTo fs.device x l b) ∧
    (OwnTree fs x →
      ((∃ y, loadInode fs'.device id = .ok y ∧ TailReleased fs fs' x y (blocksFor newSize)) ↔
        ∀ l b, blocksFor newSize ≤ l → ¬ MapsTo fs.device x l b)) := by
  have honly : (∃ y, loadInode fs'.device id = .ok y ∧
      TailReleased fs fs' x y (blocksFor newSize)) →
      ∀ l b, blocksFor newSize ≤ l → ¬ MapsTo fs.device x l b := by
    rintro ⟨y, -, hreleased⟩ l b hl
    exact truncate_nothing_mapped h hreleased hl
  exact ⟨honly, fun hx => ⟨honly, truncate_tailReleased hload hx hsize h⟩⟩

theorem not_mapsTo_of_direct (hind : x.indirect = 0) (hdbl : x.doubleIndirect = 0)
    (hblocks : ∀ i : Fin 10, n ≤ i.val → x.blocks i = 0) (hl : n ≤ l) :
    ¬ MapsTo d x l b := by
  rintro ⟨hb, sum, hmap⟩
  have href := (blockMap_eq_ok hmap).1
  unfold dataSlot at href
  split_ifs at href with hdirect
  · exact hb (href.trans (hblocks ⟨l, hdirect⟩ hl))
  · exact hb (href.trans (by rw [refAt, hind, Disk.wordOf_zero]))
  · exact hb (href.trans (by rw [refAt, hdbl, Disk.wordOf_zero, Disk.wordOf_zero]))

theorem volumeShort_inode : ∃ x, loadInode volumeShort.device 2 = .ok x ∧
    OwnTree volumeShort x ∧ x.size = 4 ∧ x.indirect = 0 ∧ x.doubleIndirect = 0 ∧
    x.blocks 0 ≠ 0 ∧ ∀ i : Fin 10, 1 ≤ i.val → x.blocks i = 0 := by
  have hany : (liveInode volumeShort.device 2).any (fun x => decide (x.size = 4 ∧
      x.indirect = 0 ∧ x.doubleIndirect = 0 ∧ x.blocks 0 ≠ 0 ∧
      ∀ i : Fin 10, 1 ≤ i.val → x.blocks i = 0)) = true := by
    decide +kernel
  simp only [Option.any_eq_true, decide_eq_true_eq] at hany
  obtain ⟨x, hx, hfacts⟩ := hany
  exact ⟨x, liveInode_eq_some_iff.mp hx, fileRun_short.holds.1.ownTree hx, hfacts⟩

/-- The last of four bytes is cut off, in the only block of the file. -/
theorem tailReleased_shortened : ∃ fs x fs', (truncate 0 2 3).run fs = (.ok (), fs') ∧
    ∃ y, loadInode fs'.device 2 = .ok y ∧ TailReleased fs fs' x y 1 := by
  obtain ⟨x, hload, hx, hsize, hind, hdbl, -, hblocks⟩ := volumeShort_inode
  have hok : ((truncate 0 2 3).run volumeShort).1 = .ok () := by decide +kernel
  have hrun := Fallible.run_eq_of_fst hok
  refine ⟨volumeShort, x, _, hrun, ((tailReleased_iff hload ?_ hrun).2 hx).mpr ?_⟩
  · rw [hsize]
    decide
  · exact fun l b hl => not_mapsTo_of_direct hind hdbl hblocks hl

/-- All four bytes are cut off: the block stays mapped, and the counter stays. -/
theorem truncate_keeps_block : ∃ fs x fs', loadInode fs.device 2 = .ok x ∧ OwnTree fs x ∧
    (truncate 0 2 0).run fs = (.ok (), fs') ∧
    ¬ ∃ y, loadInode fs'.device 2 = .ok y ∧ TailReleased fs fs' x y 0 := by
  obtain ⟨x, hload, hx, -, -, -, hblock, -⟩ := volumeShort_inode
  have hok : ((truncate 0 2 0).run volumeShort).1 = .ok () := by decide +kernel
  have hrun := Fallible.run_eq_of_fst hok
  refine ⟨volumeShort, x, _, hload, hx, hrun, ?_⟩
  rintro ⟨y, -, hreleased⟩
  have hmapped : MapsTo volumeShort.device x 0 (x.blocks 0) := ⟨hblock, _, rfl⟩
  exact truncate_nothing_mapped hrun hreleased (Nat.zero_le 0) hmapped

end ZiqaKernel
