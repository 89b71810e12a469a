/-
The two ways into the block map of an inode.  `inode_get_block` reads a pointer block as
512 pairs of a block number and a checksum, `inode_alloc_block` as 1024 block numbers.
They meet at the ten direct blocks and at the first word of the indirect block, where the
recorded checksum still has to fit.
-/
import ZiqaKernel.ZiqaFsPointers
import ZiqaKernel.ZiqaFsRuns

namespace ZiqaKernel

open Fallible Disk Image

variable {fs fs' s : ZiqaFs} {d d' : Disk} {x x' : Inode} {b c : UInt32} {k l : Nat}

/-- `inode_alloc_block` has answered `b` for logical block `l`: `inode_get_block` finds `b`
there, and it answers as before everywhere else. -/
structure MapperAgrees (fs fs' : ZiqaFs) (x x' : Inode) (l : Nat) (b : UInt32) : Prop where
  found : ∃ sum, ((inodeGetBlock x' l).run fs').1 = .ok (b, sum)
  others : ∀ k, k ≠ l → ((inodeGetBlock x' k).run fs').1 = ((inodeGetBlock x k).run fs).1

theorem mapperAgrees_iff_blockMap : MapperAgrees fs fs' x x' l b ↔
    (∃ sum, blockMap fs'.device x' l = .ok (b, sum)) ∧
      ∀ k, k ≠ l → blockMap fs'.device x' k = blockMap fs.device x k := by
  constructor
  · rintro ⟨hfound, hothers⟩
    simp only [inodeGetBlock_run] at hfound hothers
    exact ⟨hfound, hothers⟩
  · rintro ⟨hfound, hothers⟩
    constructor
    · simpa only [inodeGetBlock_run] using hfound
    · simpa only [inodeGetBlock_run] using hothers

theorem wordSlot_eq_dataSlot_iff : wordSlot l = dataSlot l ↔ l ≤ 10 := by
  unfold wordSlot dataSlot
  split_ifs <;> simp <;> omega

/-- Behind the first indirect block the lookup goes to another place, and a file does not
name a block in two places. -/
theorem le_ten_of_found {sum : UInt32} (hh : Healthy fs) (hx : OwnTree fs x)
    (hroom : x.mode = inodeModeDir ∨ l < 1034)
    (h : (inodeAllocBlock x l).run fs = (.ok (b, x'), fs'))
    (hfound : blockMap fs'.device x' l = .ok (b, sum)) : l ≤ 10 := by
  obtain ⟨hkept, hplaced⟩ := (inodeAllocBlock_placed (I := fun _ => True) trivial hh hx
    hroom).ok _ _ _ rfl h
  have hslot : refAt fs'.device x' (wordSlot l) = b := hplaced.slot
  have hdata : b = refAt fs'.device x' (dataSlot l) := (blockMap_eq_ok hfound).1
  by_contra hl
  have hne : refAt fs'.device x' (wordSlot l) ≠ refAt fs'.device x' (dataSlot l) := by
    apply hkept.ownTree.refAt_ne hplaced.counts (wordLayout.dataSlot _ l)
    · rw [hslot]
      exact hplaced.ne_zero
    · exact fun heq => hl (wordSlot_eq_dataSlot_iff.mp heq)
  exact hne (hslot.trans hdata)

/-- The allocator leaves the pointer blocks of an inode alone. -/
def PointersLeft (fs : ZiqaFs) (x : Inode) : Prop :=
  ∀ t, (pointerAt fs.device x t).1 ≠ 0 → LeftAlone fs (pointerAt fs.device x t).1

theorem InUse.leftAlone (h : InUse fs.device b) : LeftAlone fs b :=
  ⟨h.ne_bitmapBlock, fun hoffered => hoffered.2.2.2 h.2⟩

theorem pointersLeft_of_ownTree (hx : OwnTree fs x) : PointersLeft fs x := by
  intro t ht
  apply InUse.leftAlone
  cases t with
  | indirect => exact hx.inUse_refAt (s := .indirect) (wordLayout.indirect _) ht
  | double => exact hx.inUse_refAt (s := .double) (wordLayout.double _) ht
  | level1 e => exact hx.inUse_refAt (s := .level1 (2 * e)) (wordLayout.level1 _ e) ht

theorem orAlloc_leaves (h : (orAlloc b).run fs = (.ok c, fs')) :
    fs'.device.totalSectors = fs.device.totalSectors ∧
      ∀ q, LeftAlone fs q → fs'.device.block q = fs.device.block q := by
  unfold orAlloc at h
  by_cases hb : b = 0
  · rw [if_pos hb] at h
    have hoffered := offered_of_alloc h
    obtain ⟨-, -, -, -, rfl⟩ := allocDataBlock_ok h
    refine ⟨rfl, fun q hq => ?_⟩
    rw [block_setBlock_ne _ _ (hq.ne_of_offered hoffered), block_setBlock_ne _ _ hq.1]
  · rw [if_neg hb] at h
    obtain ⟨-, rfl⟩ := run_pure_eq_ok_iff.mp h
    exact ⟨rfl, fun _ _ => rfl⟩

theorem PointersLeft.blockMap_eq (hptr : PointersLeft fs x)
    (hsec : fs'.device.totalSectors = fs.device.totalSectors)
    (hkeeps : ∀ q, LeftAlone fs q → fs'.device.block q = fs.device.block q) :
    blockMap fs'.device x l = blockMap fs.device x l :=
  blockMap_congr hsec (fun h => hkeeps _ (hptr .indirect h)) (fun h => hkeeps _ (hptr .double h))
    fun e h => hkeeps _ (hptr (.level1 e) h)

/-- At the direct blocks the two agree as soon as the allocator leaves the pointer blocks
alone. -/
theorem mapper_direct (hptr : PointersLeft fs x) (hl : l < 10)
    (h : (inodeAllocBlock x l).run fs = (.ok (b, x'), fs')) :
    MapperAgrees fs fs' x x' l b := by
  rw [inodeAllocBlock, dif_pos hl, run_bind_eq_ok_iff] at h
  obtain ⟨c, s, halloc, h⟩ := h
  obtain ⟨⟨⟩, rfl⟩ := run_pure_eq_ok_iff.mp h
  obtain ⟨hsec, hkeeps⟩ := orAlloc_leaves halloc
  refine mapperAgrees_iff_blockMap.mpr ⟨⟨x.blockChecksums ⟨l, hl⟩, ?_⟩, fun k hk => ?_⟩
  · rw [blockMap, dif_pos hl]
    exact congrArg Except.ok (Prod.ext (Function.update_self _ _ _) rfl)
  · rw [← hptr.blockMap_eq hsec hkeeps]
    unfold blockMap
    by_cases hdirect : k < 10
    · have hne : (⟨k, hdirect⟩ : Fin 10) ≠ ⟨l, hl⟩ := fun heq => hk (Fin.mk.inj heq)
      rw [dif_pos hdirect, dif_pos hdirect]
      exact congrArg Except.ok (Prod.ext (Function.update_of_ne hne _ _) rfl)
    · rw [dif_neg hdirect, dif_neg hdirect]

/-- The block that `alloc_data_block` takes next under a given bitmap. -/
def nextFree (bitmap : Block) (first : Nat) : UInt32 :=
  UInt32.ofNat ((bitmapFindClear bitmap first).getD 0)

/-- The indirect block once logical block 10 has a block: a new block if there was none,
with its first word filled. -/
def grownIndirect (fs : ZiqaFs) (x : Inode) : Block :=
  let bitmap := fs.device.block bitmapBlock
  let first := fs.sb.firstDataBlock.toNat
  if x.indirect = 0 then
    let bitmap' := setBitmapBit bitmap (nextFree bitmap first).toNat
    zero.setWord 0 (nextFree bitmap' first)
  else
    let buf := fs.device.block x.indirect
    if buf.word 0 = 0 then buf.setWord 0 (nextFree bitmap first) else buf

/-- The checksum recorded for the indirect block fits it before and after logical block 10
gets its block. -/
def FirstIndirectFits (fs : ZiqaFs) (x : Inode) : Prop :=
  (x.indirect ≠ 0 → checksumMatches x.indirectChecksum (fs.device.block x.indirect) = true) ∧
    checksumMatches x.indirectChecksum (grownIndirect fs x) = true

theorem word_grownIndirect {w : Nat} (hw : w ≠ 0) :
    (grownIndirect fs x).word w = fs.device.wordOf x.indirect w := by
  unfold grownIndirect
  by_cases hind : x.indirect = 0
  · rw [if_pos hind, Image.word_setWord_ne _ _ hw, Image.word_zero, hind, Disk.wordOf_zero]
  · rw [if_neg hind, Disk.wordOf_of_ne hind]
    dsimp only
    split_ifs
    · exact word_setWord_ne _ _ hw
    · rfl

theorem nextFree_of_alloc (h : allocDataBlock.run fs = (.ok b, fs')) :
    nextFree (fs.device.block bitmapBlock) fs.sb.firstDataBlock.toNat = b := by
  rw [nextFree, (allocDataBlock_ok h).1, Option.getD_some, UInt32.ofNat_toNat]

theorem bitmap_of_alloc (hh : Healthy fs) (h : allocDataBlock.run fs = (.ok b, fs')) :
    fs'.device.block bitmapBlock = setBitmapBit (fs.device.block bitmapBlock) b.toNat ∧
      fs'.sb.firstDataBlock = fs.sb.firstDataBlock := by
  have hne := ne_bitmapBlock_of_not_taken (allocDataBlock_spec hh.reserved h).1.fresh
  obtain ⟨-, -, -, -, rfl⟩ := allocDataBlock_ok h
  refine ⟨?_, rfl⟩
  rw [block_setBlock_ne _ _ hne.symm, block_setBlock_self]

theorem block_of_allocWord {w : Nat}
    (h : (allocWord c (fs.device.block c) w).run fs = (.ok b, fs')) :
    fs'.device.block c = if (fs.device.block c).word w = 0 then
      (fs.device.block c).setWord w
        (nextFree (fs.device.block bitmapBlock) fs.sb.firstDataBlock.toNat)
      else fs.device.block c := by
  unfold allocWord at h
  by_cases hzero : (fs.device.block c).word w = 0
  · rw [if_pos hzero, run_bind_eq_ok_iff] at h
    obtain ⟨fresh, fs1, halloc, h⟩ := h
    rw [run_bind_eq_ok_iff] at h
    obtain ⟨u, fs2, hwrite, h⟩ := h
    obtain ⟨-, rfl⟩ := writeBlock_eq_ok_iff.mp hwrite
    rw [run_pure_eq_ok_iff] at h
    rw [if_pos hzero, nextFree_of_alloc halloc, ← h.2, block_setBlock_self]
  · rw [if_neg hzero] at h
    rw [run_pure_eq_ok_iff] at h
    rw [if_neg hzero, h.2]

/-- The block behind the indirect pointer after logical block 10 got its block, and what
has been left alone. -/
structure FirstWord (fs fs' : ZiqaFs) (x : Inode) (c b : UInt32) : Prop where
  ne_zero : c ≠ 0
  source : x.indirect ≠ 0 → c = x.indirect
  inRange : fs'.device.InRange c
  sectors : fs'.device.totalSectors = fs.device.totalSectors
  contents : fs'.device.block c = grownIndirect fs x
  found : (grownIndirect fs x).word 0 = b
  keeps : ∀ q, InUse fs.device q → q ≠ x.indirect → fs'.device.block q = fs.device.block q

theorem grownIndirect_of_alloc (hh : Healthy fs) (hind : x.indirect = 0)
    (halloc : allocDataBlock.run fs = (.ok c, s)) :
    grownIndirect fs x = zero.setWord 0
      (nextFree (s.device.block bitmapBlock) s.sb.firstDataBlock.toNat) := by
  obtain ⟨hbitmap, hfirst⟩ := bitmap_of_alloc hh halloc
  rw [grownIndirect, if_pos hind, hbitmap, hfirst, nextFree_of_alloc halloc]

theorem allocSingle_first (hh : Healthy fs) (hx : OwnTree fs x)
    (h : (allocSingle x 0).run fs = (.ok (b, x'), fs')) :
    ∃ c, x' = { x with indirect := c } ∧ FirstWord fs fs' x c b := by
  rw [allocSingle, run_bind_eq_ok_iff] at h
  obtain ⟨c, s, halloc, h⟩ := h
  obtain ⟨hkept, -, hc⟩ := (spec_orAlloc_indirect (I := fun _ => True) trivial hh hx).ok _ _ _ rfl
    halloc
  obtain ⟨hprov, -⟩ := orAlloc_spec hh.reserved halloc
  rw [run_bind_eq_ok_iff] at h
  obtain ⟨buf, s', hread, h⟩ := h
  obtain ⟨hrange, rfl, rfl⟩ := readBlock_eq_ok_iff.mp hread
  rw [run_bind_eq_ok_iff] at h
  obtain ⟨b', s2, hword, h⟩ := h
  obtain ⟨⟨⟩, rfl⟩ := run_pure_eq_ok_iff.mp h
  have hh1 := hkept.healthy hh
  have huse : InUse s'.device c := hkept.ownTree.inUse_refAt (s := .indirect) rfl hc
  have hfill := allocWord_filled hh1 huse (by decide) hword
  have hsec := ((allocWord_spec (I := fun _ => True) trivial hh1 hkept.ownTree (by decide) huse
    fun hpatch => hpatch.rewrites_indirect hkept.ownTree hc).ok _ _ _ rfl hword).1.rewrites.sectors
  have hcontents : s2.device.block c = grownIndirect fs x := by
    rw [block_of_allocWord hword]
    unfold orAlloc at halloc
    by_cases hind : x.indirect = 0
    · rw [if_pos hind] at halloc
      rw [grownIndirect_of_alloc hh hind halloc,
        (allocDataBlock_spec hh.reserved halloc).1.zero, word_zero, if_pos rfl]
    · rw [if_neg hind] at halloc
      obtain ⟨rfl, rfl⟩ := run_pure_eq_ok_iff.mp halloc
      rw [grownIndirect, if_neg hind]
  refine ⟨c, rfl, hc, fun hne => ?_, ?_, hsec.trans hprov.extends_.sectors, hcontents, ?_,
    fun q hq hne => ?_⟩
  · exact hprov.source.resolve_right fun h => hne h.1
  · exact (inRange_congr hsec c).mpr hrange
  · rw [← hcontents]
    exact hfill.filled
  · have hqc : q ≠ c := by
      rintro rfl
      rcases hprov.source with hsame | ⟨-, hfresh, -⟩
      · exact hne hsame
      · exact hfresh hq.taken
    rw [hfill.others q ⟨hq.1, hprov.extends_.marked q hq.2⟩ hqc,
      hprov.extends_.keeps q hq.ne_bitmapBlock hq.taken]

section

variable (h : FirstWord fs fs' x c b)
include h

theorem FirstWord.follow_eq (stored : UInt32) (message : String)
    (idx : Nat) :
    fs'.device.follow c stored message idx =
      if checksumMatches stored (grownIndirect fs x) then .ok (ptr (grownIndirect fs x) idx)
      else .error (.error (.other message)) := by
  rw [Disk.follow, if_neg h.ne_zero, if_pos h.inRange, h.contents]

theorem FirstWord.followDouble_eq (hx : OwnTree fs x)
    (stored : UInt32) (idx : Nat) :
    fs'.device.followDouble x.doubleIndirect stored idx =
      fs.device.followDouble x.doubleIndirect stored idx := by
  have hkeeps : ∀ t, wordLayout.counts x.mode t = true → t ≠ .indirect → refAt fs.device x t ≠ 0 →
      fs'.device.block (refAt fs.device x t) = fs.device.block (refAt fs.device x t) := by
    intro t hcounts ht hne
    apply h.keeps _ (hx.inUse_refAt hcounts hne)
    exact hx.refAt_ne hcounts (wordLayout.indirect _) hne ht
  exact followDouble_congr h.sectors (hkeeps .double (wordLayout.double _) (by simp))
    fun k => hkeeps (.level1 (2 * k)) (wordLayout.level1 _ k) (by simp)

theorem FirstWord.found_iff :
    (∃ sum, blockMap fs'.device { x with indirect := c } 10 = .ok (b, sum)) ↔
      checksumMatches x.indirectChecksum (grownIndirect fs x) = true := by
  change (∃ sum, fs'.device.follow c x.indirectChecksum _ 0 = .ok (b, sum)) ↔ _
  rw [h.follow_eq]
  constructor
  · rintro ⟨sum, hmap⟩
    by_contra hno
    rw [if_neg hno] at hmap
    cases hmap
  · intro hsum
    refine ⟨(grownIndirect fs x).word 1, ?_⟩
    rw [if_pos hsum]
    exact congrArg Except.ok (Prod.ext h.found rfl)

theorem FirstWord.follow_same (hh : Healthy fs)
    (hx : OwnTree fs x) (hfits : FirstIndirectFits fs x) {idx : Nat} (hidx : idx ≠ 0)
    (message : String) :
    fs'.device.follow c x.indirectChecksum message idx =
      fs.device.follow x.indirect x.indirectChecksum message idx := by
  have hfollow : fs.device.Followable x.indirect x.indirectChecksum := fun hne =>
    ⟨hh.inRange_of_inUse (hx.inUse_refAt (s := .indirect) rfl hne), hfits.1 hne⟩
  rw [h.follow_eq, if_pos hfits.2, follow_of_followable hfollow]
  exact congrArg Except.ok
    (Prod.ext (word_grownIndirect (by omega)) (word_grownIndirect (by omega)))

theorem FirstWord.others_of_fits (hh : Healthy fs)
    (hx : OwnTree fs x) (hfits : FirstIndirectFits fs x) (hk : k ≠ 10) :
    blockMap fs'.device { x with indirect := c } k = blockMap fs.device x k := by
  unfold blockMap
  by_cases hdirect : k < 10
  · rw [dif_pos hdirect, dif_pos hdirect]
  rw [dif_neg hdirect, dif_neg hdirect]
  by_cases hsingle : k - 10 < 512
  · rw [if_pos hsingle, if_pos hsingle]
    exact h.follow_same hh hx hfits (by omega) _
  rw [if_neg hsingle, if_neg hsingle, h.followDouble_eq hx]

theorem FirstWord.fits_of_others
    (hsum : checksumMatches x.indirectChecksum (grownIndirect fs x) = true)
    (hsame : blockMap fs'.device { x with indirect := c } 11 = blockMap fs.device x 11)
    (hind : x.indirect ≠ 0) :
    checksumMatches x.indirectChecksum (fs.device.block x.indirect) = true := by
  change fs'.device.follow c x.indirectChecksum _ 1 =
    fs.device.follow x.indirect x.indirectChecksum _ 1 at hsame
  rw [h.follow_eq, if_pos hsum] at hsame
  exact ((follow_eq_ok_iff.mp hsame.symm).1 hind).2

end

theorem mapper_first (hh : Healthy fs) (hx : OwnTree fs x)
    (h : (inodeAllocBlock x 10).run fs = (.ok (b, x'), fs')) :
    MapperAgrees fs fs' x x' 10 b ↔ FirstIndirectFits fs x := by
  obtain ⟨c, rfl, hfirst⟩ := allocSingle_first hh hx h
  rw [mapperAgrees_iff_blockMap, hfirst.found_iff]
  constructor
  · rintro ⟨hsum, hothers⟩
    exact ⟨fun hind => hfirst.fits_of_others hsum (hothers 11 (by decide)) hind, hsum⟩
  · intro hfits
    exact ⟨hfits.2, fun k hk => hfirst.others_of_fits hh hx hfits hk⟩

/-- Where `inode_get_block` follows `inode_alloc_block`: at the direct blocks, if the
allocator leaves the pointer blocks alone.  On a volume in order, for a file whose blocks
are its own and the places that hold block numbers, these are the direct blocks, and
logical block 10 if the checksum of the indirect block fits. -/
theorem mapperAgrees_iff (h : (inodeAllocBlock x l).run fs = (.ok (b, x'), fs')) :
    (l < 10 → PointersLeft fs x → MapperAgrees fs fs' x x' l b) ∧
    (Healthy fs → OwnTree fs x → (x.mode = inodeModeDir ∨ l < 1034) →
      (MapperAgrees fs fs' x x' l b ↔ l < 10 ∨ l = 10 ∧ FirstIndirectFits fs x)) := by
  refine ⟨fun hdirect hptr => mapper_direct hptr hdirect h, fun hh hx hroom => ?_⟩
  by_cases hdirect : l < 10
  · exact iff_of_true (mapper_direct (pointersLeft_of_ownTree hx) hdirect h) (Or.inl hdirect)
  by_cases hten : l = 10
  · subst hten
    rw [mapper_first hh hx h, and_iff_right rfl, or_iff_right hdirect]
  · refine iff_of_false (fun hagrees => ?_) (by omega)
    obtain ⟨⟨sum, hfound⟩, -⟩ := mapperAgrees_iff_blockMap.mp hagrees
    have hl := le_ten_of_found hh hx hroom h hfound
    omega

def newDirectory : Inode := freshInode inodeModeDir 0

theorem volumeFormatted_sound : Sound volumeFormatted := by
  have hformat : (format 0 emptyDevice).1 = .ok () := by decide +kernel
  have hreached : Reached Call.Safe volumeFormatted := by
    unfold volumeFormatted
    exact reached_format hformat
  exact hreached.sound

theorem newDirectory_ownTree (fs : ZiqaFs) : OwnTree fs newDirectory := by
  have hzero : ∀ t, tree wordLayout fs.device newDirectory t = 0 := by
    intro t
    rw [tree, refAt_eq_zero (fun _ => rfl) rfl rfl, ite_self]
  exact ⟨fun ht => absurd (hzero _) ht, fun ht => absurd (hzero _) ht⟩

/-- The first block behind the direct ones. -/
theorem mapperAgrees_tenth : ∃ b x' fs',
    (inodeAllocBlock newDirectory 10).run volumeFormatted = (.ok (b, x'), fs') ∧
      MapperAgrees volumeFormatted fs' newDirectory x' 10 b := by
  have hok : (((inodeAllocBlock newDirectory 10).run volumeFormatted).1.toOption).isSome =
      true := by
    decide +kernel
  rcases hrun : (inodeAllocBlock newDirectory 10).run volumeFormatted with ⟨e | ⟨b, x'⟩, fs'⟩
  · rw [hrun] at hok
    cases hok
  refine ⟨b, x', fs', rfl, ?_⟩
  have hexact := (mapperAgrees_iff hrun).2 volumeFormatted_sound.healthy
    (newDirectory_ownTree _) (Or.inl rfl)
  exact hexact.mpr (Or.inr ⟨rfl, fun hne => absurd rfl hne, rfl⟩)

def allocThenGet (x : Inode) (l : Nat) : FsM (UInt32 × UInt32 × UInt32) := do
  let r ← inodeAllocBlock x l
  let p ← inodeGetBlock r.2 l
  pure (r.1, p)

theorem not_mapperAgrees_of_lookup {p : UInt32 × UInt32}
    (h : ((allocThenGet x l).run fs).1 = .ok (b, p)) (hne : p.1 ≠ b) :
    ∃ x' fs', (inodeAllocBlock x l).run fs = (.ok (b, x'), fs') ∧
      ¬ MapperAgrees fs fs' x x' l b := by
  obtain ⟨⟨b', x'⟩, fs', hrun, hrest⟩ :=
    run_bind_eq_ok_iff.mp (run_eq_of_fst h)
  obtain ⟨p', fs'', hget, hpair⟩ := run_bind_eq_ok_iff.mp hrest
  obtain ⟨⟨⟩, -⟩ := run_pure_eq_ok_iff.mp hpair
  refine ⟨x', fs', hrun, fun hagrees => ?_⟩
  obtain ⟨sum, hfound⟩ := hagrees.found
  rw [hget] at hfound
  exact hne (congrArg Prod.fst (Except.ok.inj hfound))

/-- The next one: the lookup finds nothing. -/
theorem eleventh_not_found : ∃ x' fs',
    (inodeAllocBlock newDirectory 11).run volumeFormatted = (.ok (7, x'), fs') ∧
      ¬ MapperAgrees volumeFormatted fs' newDirectory x' 11 7 := by
  have hprobe : ((allocThenGet newDirectory 11).run volumeFormatted).1 = .ok (7, 0, 0) := by
    decide +kernel
  exact not_mapperAgrees_of_lookup hprobe (by decide)

end ZiqaKernel
