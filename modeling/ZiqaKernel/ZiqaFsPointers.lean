/-
The law of the block map: `inode_set_block` rebinds one logical block, every
other lookup answers as before, and the checksums of the pointer blocks match
again.  It rests on the allocator leaving the pointer blocks of the inode alone.
-/
import ZiqaKernel.ZiqaFsAllocation

namespace ZiqaKernel

open Fallible Disk Image

/-- The places where a lookup finds a pointer block and its checksum. -/
inductive PointerSlot where
  | indirect
  | double
  | level1 (e : Nat)
deriving DecidableEq

/-- The pointer block named at a place, with the checksum stored beside it. -/
def pointerAt (d : Disk) (x : Inode) : PointerSlot → UInt32 × UInt32
  | .indirect => (x.indirect, x.indirectChecksum)
  | .double => (x.doubleIndirect, x.doubleIndirectChecksum)
  | .level1 e =>
    (d.wordOf x.doubleIndirect (2 * e), d.wordOf x.doubleIndirect (2 * e + 1))

def Disk.SumMatches (d : Disk) (p : UInt32 × UInt32) : Prop :=
  p.1 ≠ 0 → checksumMatches p.2 (d.block p.1) = true

/-- All the pointer blocks of an inode agree with their checksums. -/
def ChecksumsMatch (d : Disk) (x : Inode) : Prop :=
  ∀ s, d.SumMatches (pointerAt d x s)

def PointersDistinct (d : Disk) (x : Inode) : Prop :=
  ∀ s t, (pointerAt d x s).1 ≠ 0 → (pointerAt d x s).1 = (pointerAt d x t).1 → s = t

/-- A block that `alloc_data_block` may hand out. -/
def Offered (fs : ZiqaFs) (b : UInt32) : Prop :=
  fs.sb.firstDataBlock.toNat ≤ b.toNat ∧ b.toNat < fs.sb.totalBlocks.toNat ∧
    b.toNat < 32768 ∧ ¬ marked fs.device b

def LeftAlone (fs : ZiqaFs) (b : UInt32) : Prop := b ≠ bitmapBlock ∧ ¬ Offered fs b

/-- The allocator hands out neither block zero nor the bitmap, and leaves the
pointer blocks of an inode alone. -/
structure PointersKept (fs : ZiqaFs) (x : Inode) : Prop where
  zero : ¬ Offered fs 0
  bitmap : ¬ Offered fs bitmapBlock
  pointer : ∀ s, (pointerAt fs.device x s).1 ≠ 0 → LeftAlone fs (pointerAt fs.device x s).1

/-- The pointer blocks of an inode are its own and safe from the allocator. -/
structure OwnPointers (fs : ZiqaFs) (x : Inode) : Prop extends PointersKept fs x where
  distinct : PointersDistinct fs.device x

variable {fs : ZiqaFs}

theorem LeftAlone.ne_of_offered {b c : UInt32} (hc : LeftAlone fs c)
    (hb : Offered fs b) : c ≠ b := by
  intro h
  rw [← h] at hb
  exact hc.2 hb

theorem Disk.SumMatches.followable {d : Disk} {p : UInt32 × UInt32}
    (h : d.SumMatches p) (hrange : p.1 ≠ 0 → d.InRange p.1) :
    d.Followable p.1 p.2 :=
  fun hne => ⟨hrange hne, h hne⟩

theorem Disk.SumMatches.congr {d d' : Disk} {p : UInt32 × UInt32}
    (h : d.SumMatches p) (hblock : p.1 ≠ 0 → d'.block p.1 = d.block p.1) :
    d'.SumMatches p := by
  intro hne
  rw [hblock hne]
  exact h hne

theorem Disk.sumMatches_crc32 {d : Disk} {b : UInt32} {buf : Block}
    (h : d.block b = buf) : d.SumMatches (b, crc32 buf.toList) := by
  intro _
  rw [h]
  exact checksumMatches_self buf

/-- The pointer block that `orAlloc` settles on, seen from the blocks that the
allocator must leave alone. -/
structure BlockGranted (fs fs' : ZiqaFs) (recorded b : UInt32) : Prop where
  sectors : fs'.device.totalSectors = fs.device.totalSectors
  ne_zero : b ≠ 0
  words : ∀ w, (fs'.device.block b).word w = fs.device.wordOf recorded w
  source : b = recorded ∨ recorded = 0 ∧ Offered fs b
  keeps : ∀ c, LeftAlone fs c → fs'.device.block c = fs.device.block c
  offered : ∀ c, Offered fs' c → Offered fs c
  spent : b ≠ recorded → ¬ Offered fs' b

variable {fs' : ZiqaFs}

theorem offered_of_alloc {b : UInt32} (h : allocDataBlock.run fs = (.ok b, fs')) :
    Offered fs b := by
  obtain ⟨hfind, htotal, -, -, -⟩ := allocDataBlock_ok h
  obtain ⟨hfirst, hsize, hclear⟩ := bitmapFindClear_some hfind
  refine ⟨hfirst, htotal, hsize, ?_⟩
  rw [marked, hclear]
  simp

theorem allocDataBlock_blockGranted {b : UInt32}
    (hzero : ¬ Offered fs 0) (hbitmap : ¬ Offered fs bitmapBlock)
    (h : allocDataBlock.run fs = (.ok b, fs')) : BlockGranted fs fs' 0 b := by
  have hoffered := offered_of_alloc h
  have hb : b.toNat < 32768 := hoffered.2.2.1
  obtain ⟨-, -, -, -, rfl⟩ := allocDataBlock_ok h
  have hne : b ≠ bitmapBlock := by
    rintro rfl
    exact hbitmap hoffered
  have hmarked : ∀ c, marked ((fs.device.setBlock bitmapBlock
      (setBitmapBit (fs.device.block bitmapBlock) b.toNat)).setBlock b
        zero) c ↔ marked fs.device c ∨ c = b := by
    intro c
    rw [marked_setBlock _ hne, marked_setBitmapBit _ hb]
  constructor
  case sectors => rfl
  case ne_zero =>
    rintro rfl
    exact hzero hoffered
  case words =>
    intro w
    rw [block_setBlock_self, word_zero, wordOf_zero]
  case source => exact Or.inr ⟨rfl, hoffered⟩
  case keeps =>
    intro c hc
    rw [block_setBlock_ne _ _ (hc.ne_of_offered hoffered), block_setBlock_ne _ _ hc.1]
  case offered =>
    intro c hc
    exact ⟨hc.1, hc.2.1, hc.2.2.1, fun hm => hc.2.2.2 ((hmarked c).mpr (Or.inl hm))⟩
  case spent =>
    intro _ hc
    exact hc.2.2.2 ((hmarked b).mpr (Or.inr rfl))

theorem orAlloc_blockGranted {recorded b : UInt32}
    (hzero : ¬ Offered fs 0) (hbitmap : ¬ Offered fs bitmapBlock)
    (h : (orAlloc recorded).run fs = (.ok b, fs')) : BlockGranted fs fs' recorded b := by
  by_cases hrec : recorded = 0
  · rw [orAlloc, if_pos hrec] at h
    rw [hrec]
    exact allocDataBlock_blockGranted hzero hbitmap h
  · rw [orAlloc, if_neg hrec, run_pure, Prod.mk.injEq, Except.ok.injEq] at h
    obtain ⟨rfl, rfl⟩ := h
    exact
      { sectors := rfl
        ne_zero := hrec
        words := fun w => (wordOf_of_ne hrec w).symm
        source := Or.inl rfl
        keeps := fun _ _ => rfl
        offered := fun _ hc => hc
        spent := fun hne => absurd rfl hne }

theorem setSingle_ok {x x' : Inode} {idx : Nat} {entry : UInt32 × UInt32}
    (h : (setSingle x idx entry).run fs = (.ok x', fs')) :
    ∃ b fs1, (orAlloc x.indirect).run fs = (.ok b, fs1) ∧ fs1.device.InRange b ∧ fs' = { fs1 with
        device := fs1.device.setBlock b (setPtr (fs1.device.block b) idx entry) } ∧
      x' = { x with
        indirect := b
        indirectChecksum :=
          crc32 (setPtr (fs1.device.block b) idx entry).toList } := by
  rw [setSingle, run_bind_eq_ok_iff] at h
  obtain ⟨b, fs1, halloc, h⟩ := h
  rw [run_bind_eq_ok_iff] at h
  obtain ⟨buf, fs2, hread, h⟩ := h
  obtain ⟨hrange, rfl, rfl⟩ := readBlock_eq_ok_iff.mp hread
  rw [run_bind_eq_ok_iff] at h
  obtain ⟨u, fs3, hwrite, h⟩ := h
  obtain ⟨-, rfl⟩ := writeBlock_eq_ok_iff.mp hwrite
  rw [run_pure_eq_ok_iff] at h
  exact ⟨b, fs2, halloc, hrange, h.2.symm, h.1.symm⟩

theorem setDouble_ok {x x' : Inode} {idx : Nat} {entry : UInt32 × UInt32}
    (h : (setDouble x idx entry).run fs = (.ok x', fs')) :
    ∃ b fs1 c fs2, (orAlloc x.doubleIndirect).run fs = (.ok b, fs1) ∧
      (orAlloc (ptr (fs1.device.block b) (idx / 512)).1).run fs1 = (.ok c, fs2) ∧
      fs1.device.InRange b ∧ fs2.device.InRange c ∧
      ∃ buf2 buf, buf2 = setPtr (fs2.device.block c) (idx % 512) entry ∧
        buf = setPtr (fs1.device.block b) (idx / 512) (c, crc32 buf2.toList) ∧
        fs' = { fs2 with
          device := (fs2.device.setBlock c buf2).setBlock b buf } ∧
        x' = { x with
          doubleIndirect := b
          doubleIndirectChecksum := crc32 buf.toList } := by
  rw [setDouble, run_bind_eq_ok_iff] at h
  obtain ⟨b, fs1, hdouble, h⟩ := h
  rw [run_bind_eq_ok_iff] at h
  obtain ⟨buf, fs1', hread, h⟩ := h
  obtain ⟨hrange, rfl, rfl⟩ := readBlock_eq_ok_iff.mp hread
  rw [run_bind_eq_ok_iff] at h
  obtain ⟨c, fs2, hlevel, h⟩ := h
  rw [run_bind_eq_ok_iff] at h
  obtain ⟨buf2, fs2', hread2, h⟩ := h
  obtain ⟨hrange2, rfl, rfl⟩ := readBlock_eq_ok_iff.mp hread2
  rw [run_bind_eq_ok_iff] at h
  obtain ⟨u, fs3, hwrite2, h⟩ := h
  obtain ⟨-, rfl⟩ := writeBlock_eq_ok_iff.mp hwrite2
  rw [run_bind_eq_ok_iff] at h
  obtain ⟨u, fs4, hwrite, h⟩ := h
  obtain ⟨-, rfl⟩ := writeBlock_eq_ok_iff.mp hwrite
  rw [run_pure_eq_ok_iff] at h
  exact ⟨b, fs1', c, fs2', hdouble, hlevel, hrange, hrange2, _, _, rfl, rfl, h.2.symm, h.1.symm⟩

theorem Disk.follow_patched {d d' : Disk} {b b' stored stored' : UInt32} {i : Nat}
    {entry : UInt32 × UInt32} (h : d.Followable b stored)
    (h' : d'.Followable b' stored')
    (hwords : ∀ w, d'.wordOf b' w =
      if w = 2 * i then entry.1 else if w = 2 * i + 1 then entry.2 else d.wordOf b w)
    (message : String) (idx : Nat) :
    d'.follow b' stored' message idx =
      if idx = i then .ok entry else d.follow b stored message idx := by
  rw [follow_of_followable h', follow_of_followable h, hwords, hwords]
  by_cases hidx : idx = i
  · simp [hidx]
  · rw [if_neg hidx, if_neg (by omega), if_neg (by omega), if_neg (by omega), if_neg (by omega)]

section

variable {fs fs1 fs2 : ZiqaFs} {x x' : Inode} {b c : UInt32}
  {entry : UInt32 × UInt32} {l e f : Nat} {buf buf2 : Block} {s : PointerSlot}

/-- A pointer block differs from the one granted for another place, also when
the grant comes after further allocations. -/
theorem BlockGranted.ne_pointer {t : PointerSlot}
    (h : BlockGranted fs1 fs2 (pointerAt fs.device x t).1 b)
    (hearlier : ∀ c, Offered fs1 c → Offered fs c)
    (hown : OwnPointers fs x)
    (hst : s ≠ t) (hne : (pointerAt fs.device x s).1 ≠ 0) :
    (pointerAt fs.device x s).1 ≠ b := by
  rcases h.source with hb | ⟨-, hb⟩
  · intro heq
    exact hst (hown.distinct s t hne (heq.trans hb))
  · exact (hown.pointer s hne).ne_of_offered (hearlier b hb)

theorem BlockGranted.followable {recorded stored : UInt32} (h : BlockGranted fs fs1 recorded b)
    (hsum : fs.device.SumMatches (recorded, stored)) (hrange : fs1.device.InRange b) :
    fs.device.Followable recorded stored := by
  apply hsum.followable
  intro hne
  rcases h.source with hb | ⟨hzero, -⟩
  · rw [← hb]
    exact (inRange_congr h.sectors b).mp hrange
  · exact absurd hzero hne

/-- What `inode_set_block` leaves behind when it goes through the indirect
block. -/
structure SinglePatch (fs fs1 : ZiqaFs) (x : Inode) (b : UInt32) (i : Nat)
    (entry : UInt32 × UInt32) (buf : Block) : Prop where
  grant : BlockGranted fs fs1 x.indirect b
  inRange : fs1.device.InRange b
  bound : i < 512
  contents : buf = setPtr (fs1.device.block b) i entry

def Inode.withIndirect (x : Inode) (b : UInt32) (buf : Block) : Inode :=
  { x with indirect := b, indirectChecksum := crc32 buf.toList }

variable {i : Nat}

section

variable (h : SinglePatch fs fs1 x b i entry buf)
include h

theorem SinglePatch.words (w : Nat) :
    (fs1.device.setBlock b buf).wordOf b w =
      if w = 2 * i then entry.1 else if w = 2 * i + 1 then entry.2
      else fs.device.wordOf x.indirect w := by
  rw [wordOf_of_ne h.grant.ne_zero, block_setBlock_self, h.contents,
    word_setPtr _ h.bound, h.grant.words]

theorem SinglePatch.keeps
    (hown : OwnPointers fs x)
    (hs : s ≠ .indirect) (hne : (pointerAt fs.device x s).1 ≠ 0) :
    (fs1.device.setBlock b buf).block (pointerAt fs.device x s).1 =
      fs.device.block (pointerAt fs.device x s).1 := by
  have hgrant : BlockGranted fs fs1 (pointerAt fs.device x .indirect).1 b := h.grant
  have hb := hgrant.ne_pointer (fun _ ho => ho) hown hs hne
  rw [block_setBlock_ne _ _ hb, h.grant.keeps _ (hown.pointer s hne)]

theorem SinglePatch.pointerAt_eq
    (hown : OwnPointers fs x)
    (hs : s ≠ .indirect) :
    pointerAt (fs1.device.setBlock b buf) (x.withIndirect b buf) s = pointerAt fs.device x s := by
  cases s with
  | indirect => exact absurd rfl hs
  | double => rfl
  | level1 e =>
    have hwords := wordOf_congr
      (h.keeps hown (s := .double) (by simp))
    exact Prod.ext (hwords _) (hwords _)

theorem SinglePatch.sums
    (hown : OwnPointers fs x)
    (hsums : ChecksumsMatch fs.device x) :
    ChecksumsMatch (fs1.device.setBlock b buf) (x.withIndirect b buf) := by
  intro s
  by_cases hs : s = .indirect
  · rw [hs]
    exact sumMatches_crc32 (block_setBlock_self _ _ _)
  · rw [h.pointerAt_eq hown hs]
    exact (hsums s).congr (h.keeps hown hs)

end

theorem SinglePatch.map (h : SinglePatch fs fs1 x b (l - 10) entry buf) (hown : OwnPointers fs x)
    (hsum : fs.device.SumMatches (pointerAt fs.device x .indirect)) (hl : ¬ l < 10)
    (k : Nat) :
    blockMap (fs1.device.setBlock b buf) (x.withIndirect b buf) k =
      if k = l then .ok entry else blockMap fs.device x k := by
  have hbound := h.bound
  have hfollow := h.grant.followable hsum h.inRange
  have hself : (fs1.device.setBlock b buf).Followable b (crc32 buf.toList) :=
    (sumMatches_crc32 (block_setBlock_self _ _ _)).followable fun _ => h.inRange
  unfold blockMap
  by_cases hk10 : k < 10
  · have hk : k ≠ l := by omega
    simp [hk10, hk, Inode.withIndirect]
  rw [dif_neg hk10, dif_neg hk10]
  by_cases hksingle : k - 10 < 512
  · rw [if_pos hksingle, if_pos hksingle]
    have hkl : k - 10 = l - 10 ↔ k = l := by omega
    rw [← if_congr hkl rfl rfl]
    exact follow_patched hfollow hself h.words _ _
  · have hk : k ≠ l := by omega
    have hdouble : (fs1.device.setBlock b buf).followDouble x.doubleIndirect
        x.doubleIndirectChecksum (k - 10 - 512) =
        fs.device.followDouble x.doubleIndirect x.doubleIndirectChecksum (k - 10 - 512) :=
      followDouble_congr h.grant.sectors
        (h.keeps hown (s := .double) (by simp))
        fun j => h.keeps hown (s := .level1 j) (by simp)
    rw [if_neg hksingle, if_neg hksingle, if_neg hk, ← hdouble]
    rfl

/-- What `inode_set_block` leaves behind when it goes through the
double-indirect block. -/
structure LevelPatch (fs fs1 fs2 : ZiqaFs) (x : Inode) (b c : UInt32) (e f : Nat)
    (entry : UInt32 × UInt32) (buf buf2 : Block) : Prop where
  grant : BlockGranted fs fs1 x.doubleIndirect b
  grant2 : BlockGranted fs1 fs2 (pointerAt fs.device x (.level1 e)).1 c
  inRange : fs1.device.InRange b
  inRange2 : fs2.device.InRange c
  bound : e < 512
  bound2 : f < 512
  contents2 : buf2 = setPtr (fs2.device.block c) f entry
  contents : buf = setPtr (fs1.device.block b) e (c, crc32 buf2.toList)

def Inode.withDouble (x : Inode) (b : UInt32) (buf : Block) : Inode :=
  { x with doubleIndirect := b, doubleIndirectChecksum := crc32 buf.toList }

def ZiqaFs.patched (fs : ZiqaFs) (b c : UInt32) (buf buf2 : Block) : Disk :=
  (fs.device.setBlock c buf2).setBlock b buf

namespace LevelPatch

section

variable (h : LevelPatch fs fs1 fs2 x b c e f entry buf buf2)

include h

theorem leftAlone_one {k : UInt32} (hk : LeftAlone fs k) : LeftAlone fs1 k :=
  ⟨hk.1, fun ho => hk.2 (h.grant.offered k ho)⟩

theorem words (w : Nat) : (fs2.patched b c buf buf2).wordOf b w =
      if w = 2 * e then c else if w = 2 * e + 1 then crc32 buf2.toList
      else fs.device.wordOf x.doubleIndirect w := by
  rw [ZiqaFs.patched, wordOf_of_ne h.grant.ne_zero, block_setBlock_self,
    h.contents, word_setPtr _ h.bound, h.grant.words]

theorem pointerAt_eq (hs : s ≠ .double) (hs' : s ≠ .level1 e) :
    pointerAt (fs2.patched b c buf buf2) (x.withDouble b buf) s = pointerAt fs.device x s := by
  cases s with
  | indirect => rfl
  | double => exact absurd rfl hs
  | level1 j =>
    have hj : j ≠ e := fun hj => hs' (by rw [hj])
    have hnumber := h.words (2 * j)
    have hsum := h.words (2 * j + 1)
    rw [if_neg (by omega), if_neg (by omega)] at hnumber hsum
    exact Prod.ext hnumber hsum

theorem pointerAt_level : pointerAt (fs2.patched b c buf buf2) (x.withDouble b buf) (.level1 e) =
      (c, crc32 buf2.toList) := by
  have hnumber := h.words (2 * e)
  have hsum := h.words (2 * e + 1)
  rw [if_pos rfl] at hnumber
  rw [if_neg (by omega), if_pos rfl] at hsum
  exact Prod.ext hnumber hsum

variable (hown : OwnPointers fs x)

include hown

theorem ne : c ≠ b := by
  have hgrant : BlockGranted fs fs1 (pointerAt fs.device x .double).1 b := h.grant
  rcases h.grant2.source with hc | ⟨-, hc⟩
  · rw [hc]
    exact hgrant.ne_pointer (fun _ ho => ho) hown (by simp) (hc ▸ h.grant2.ne_zero)
  · rintro rfl
    by_cases hrec : c = x.doubleIndirect
    · have hpointer : x.doubleIndirect ≠ 0 → LeftAlone fs x.doubleIndirect :=
        hown.pointer .double
      rw [← hrec] at hpointer
      exact (hpointer h.grant.ne_zero).2 (h.grant.offered c hc)
    · exact h.grant.spent hrec hc

theorem keeps (hs : s ≠ .double) (hs' : s ≠ .level1 e) (hne : (pointerAt fs.device x s).1 ≠ 0) :
    (fs2.patched b c buf buf2).block (pointerAt fs.device x s).1 =
      fs.device.block (pointerAt fs.device x s).1 := by
  have hgrant : BlockGranted fs fs1 (pointerAt fs.device x .double).1 b := h.grant
  have hb := hgrant.ne_pointer (fun _ ho => ho) hown hs hne
  have hc := h.grant2.ne_pointer h.grant.offered hown hs' hne
  have hkeep := hown.pointer s hne
  rw [ZiqaFs.patched, block_setBlock_ne _ _ hb, block_setBlock_ne _ _ hc,
    h.grant2.keeps _ (h.leftAlone_one hkeep), h.grant.keeps _ hkeep]

theorem words2 (w : Nat) : (fs2.patched b c buf buf2).wordOf c w =
      if w = 2 * f then entry.1 else if w = 2 * f + 1 then entry.2
      else fs.device.wordOf (pointerAt fs.device x (.level1 e)).1 w := by
  have hkeep : fs1.device.wordOf (pointerAt fs.device x (.level1 e)).1 w =
      fs.device.wordOf (pointerAt fs.device x (.level1 e)).1 w :=
    wordOf_congr (fun hne => h.grant.keeps _ (hown.pointer _ hne)) w
  rw [ZiqaFs.patched, wordOf_of_ne h.grant2.ne_zero,
    block_setBlock_ne _ _ (h.ne hown), block_setBlock_self,
    h.contents2, word_setPtr _ h.bound2, h.grant2.words, hkeep]

theorem block_level : (fs2.patched b c buf buf2).block c = buf2 := by
  rw [ZiqaFs.patched, block_setBlock_ne _ _ (h.ne hown), block_setBlock_self]

theorem sums (hsums : ChecksumsMatch fs.device x) :
    ChecksumsMatch (fs2.patched b c buf buf2) (x.withDouble b buf) := by
  intro s
  by_cases hs : s = .double
  · rw [hs]
    exact sumMatches_crc32 (block_setBlock_self _ _ _)
  by_cases hs' : s = .level1 e
  · rw [hs', h.pointerAt_level]
    exact sumMatches_crc32 (h.block_level hown)
  · rw [h.pointerAt_eq hs hs']
    exact (hsums s).congr (h.keeps hown hs hs')

theorem followDouble_eq (hsum : fs.device.SumMatches (pointerAt fs.device x .double))
    (hsum2 : fs.device.SumMatches (pointerAt fs.device x (.level1 e))) (idx : Nat) :
    (fs2.patched b c buf buf2).followDouble b (crc32 buf.toList) idx =
      if idx / 512 = e ∧ idx % 512 = f then .ok entry
      else fs.device.followDouble x.doubleIndirect x.doubleIndirectChecksum idx := by
  have hsec : (fs2.patched b c buf buf2).totalSectors = fs.device.totalSectors :=
    h.grant2.sectors.trans h.grant.sectors
  have hfollow := h.grant.followable hsum h.inRange
  have hself : (fs2.patched b c buf buf2).Followable b (crc32 buf.toList) :=
    (sumMatches_crc32 (block_setBlock_self _ _ _)).followable
      fun _ => (inRange_congr h.grant2.sectors b).mpr h.inRange
  have hself2 : (fs2.patched b c buf buf2).Followable c (crc32 buf2.toList) :=
    (sumMatches_crc32 (h.block_level hown)).followable fun _ => h.inRange2
  unfold followDouble
  have hwords : ∀ w, (fs2.patched b c buf buf2).wordOf b w =
      if w = 2 * e then (c, crc32 buf2.toList).1
      else if w = 2 * e + 1 then (c, crc32 buf2.toList).2
      else fs.device.wordOf x.doubleIndirect w := h.words
  rw [follow_patched hfollow hself hwords]
  by_cases he : idx / 512 = e
  · -- the entry that was written: the level-two block is the patched one
    have hsum1 : fs1.device.SumMatches (pointerAt fs.device x (.level1 e)) :=
      hsum2.congr fun hne => h.grant.keeps _ (hown.pointer _ hne)
    have hfollow2 : fs.device.Followable (pointerAt fs.device x (.level1 e)).1
        (pointerAt fs.device x (.level1 e)).2 := by
      apply hsum2.followable
      intro hne
      have hone := h.grant2.followable hsum1 h.inRange2 hne
      exact (inRange_congr h.grant.sectors _).mp hone.1
    rw [if_pos he, follow_of_followable hfollow]
    simp only
    rw [follow_patched hfollow2 hself2 (h.words2 hown), he]
    simp only [true_and]
    rfl
  · -- another entry: its level-two block is where it was
    rw [if_neg he, if_neg (fun hboth => he hboth.1)]
    cases hl : fs.device.follow x.doubleIndirect x.doubleIndirectChecksum
        "Double indirect block checksum mismatch" (idx / 512) with
    | error err => rfl
    | ok p =>
      obtain ⟨-, rfl⟩ := follow_eq_ok_iff.mp hl
      apply follow_congr hsec
      exact h.keeps hown (s := .level1 (idx / 512)) (by simp) (by simpa using he)

end

theorem map (h : LevelPatch fs fs1 fs2 x b c ((l - 10 - 512) / 512)
      ((l - 10 - 512) % 512) entry buf buf2)
    (hown : OwnPointers fs x)
    (hsum : fs.device.SumMatches (pointerAt fs.device x .double))
    (hsum2 : fs.device.SumMatches (pointerAt fs.device x (.level1 ((l - 10 - 512) / 512))))
    (hl : ¬ l < 10) (hl' : ¬ l - 10 < 512) (hl2 : l - 10 - 512 < 512 * 512) (k : Nat) :
    blockMap (fs2.patched b c buf buf2) (x.withDouble b buf) k =
      if k = l then .ok entry else blockMap fs.device x k := by
  have hsec : (fs2.patched b c buf buf2).totalSectors = fs.device.totalSectors :=
    h.grant2.sectors.trans h.grant.sectors
  unfold blockMap
  by_cases hk10 : k < 10
  · have hk : k ≠ l := by omega
    simp [hk10, hk, Inode.withDouble]
  rw [dif_neg hk10, dif_neg hk10]
  by_cases hksingle : k - 10 < 512
  · have hk : k ≠ l := by omega
    rw [if_pos hksingle, if_pos hksingle, if_neg hk]
    exact follow_congr hsec
      (h.keeps hown (s := .indirect) (by simp) (by simp))
  rw [if_neg hksingle, if_neg hksingle]
  by_cases hkdouble : k - 10 - 512 < 512 * 512
  · have hkl : ((k - 10 - 512) / 512 = (l - 10 - 512) / 512 ∧
        (k - 10 - 512) % 512 = (l - 10 - 512) % 512) ↔ k = l := by omega
    rw [if_pos hkdouble, if_pos hkdouble, ← if_congr hkl rfl rfl]
    exact h.followDouble_eq hown hsum hsum2 _
  · have hk : k ≠ l := by omega
    rw [if_neg hkdouble, if_neg hkdouble, if_neg hk]

end LevelPatch

/-- The pointer blocks that a lookup of logical block `l` goes through. -/
def pathSlots (l : Nat) : List PointerSlot :=
  if l < 10 then []
  else if l - 10 < 512 then [.indirect]
  else [.double, .level1 ((l - 10 - 512) / 512)]

theorem pathSlots_sumMatches {d : Disk} {p : UInt32 × UInt32} (h : blockMap d x l = .ok p) :
    ∀ s ∈ pathSlots l, d.SumMatches (pointerAt d x s) := by
  unfold blockMap at h
  unfold pathSlots
  split_ifs at h ⊢ with hdirect hsingle hdouble
  · simp
  · intro s hs hne
    rw [List.mem_singleton] at hs
    subst hs
    exact ((follow_eq_ok_iff.mp h).1 hne).2
  · obtain ⟨hfollow, h⟩ := followDouble_eq_ok_iff.mp h
    have hfollow2 := (follow_eq_ok_iff.mp h).1
    intro s hs hne
    rw [List.mem_cons, List.mem_singleton] at hs
    rcases hs with rfl | rfl
    · exact (hfollow hne).2
    · exact (hfollow2 hne).2

/-- From `fs`, `x` to `fs'`, `x'`, logical block `l` was bound to `entry`. -/
structure Rebound (fs fs' : ZiqaFs) (x x' : Inode) (l : Nat) (entry : UInt32 × UInt32) : Prop where
  map : (∀ s ∈ pathSlots l, fs.device.SumMatches (pointerAt fs.device x s)) →
    ∀ k, blockMap fs'.device x' k =
      if k = l then .ok entry else blockMap fs.device x k
  sums : ChecksumsMatch fs.device x → ChecksumsMatch fs'.device x'

theorem rebound_direct (phys cs : UInt32) (hl : l < 10) : Rebound fs fs x { x with
        blocks := Function.update x.blocks ⟨l, hl⟩ phys
        blockChecksums := Function.update x.blockChecksums ⟨l, hl⟩ cs } l
      (phys, cs) where
  map _ k := by
    by_cases hk : k = l
    · subst hk
      simp [blockMap, hl]
    · rw [if_neg hk]
      unfold blockMap
      by_cases hk10 : k < 10
      · have hne : (⟨k, hk10⟩ : Fin 10) ≠ ⟨l, hl⟩ := fun h => hk (Fin.mk.inj h)
        simp [hk10, Function.update_of_ne hne]
      · simp [hk10]
  sums h s := by
    cases s with
    | indirect => exact h .indirect
    | double => exact h .double
    | level1 e => exact h (.level1 e)

theorem inodeSetBlock_rebound {phys cs : UInt32} (hown : OwnPointers fs x)
    (h : (inodeSetBlock x l phys cs).run fs = (.ok x', fs')) :
    Rebound fs fs' x x' l (phys, cs) := by
  unfold inodeSetBlock at h
  split_ifs at h with hdirect hsingle hdouble
  · obtain ⟨rfl, rfl⟩ := run_pure_eq_ok_iff.mp h
    exact rebound_direct phys cs hdirect
  · obtain ⟨b, fs1, halloc, hrange, rfl, rfl⟩ := setSingle_ok h
    have hgrant := orAlloc_blockGranted hown.zero hown.bitmap halloc
    have hpatch : SinglePatch fs fs1 x b (l - 10) (phys, cs)
        (setPtr (fs1.device.block b) (l - 10) (phys, cs)) :=
      ⟨hgrant, hrange, hsingle, rfl⟩
    constructor
    · intro hpath
      have hslot : PointerSlot.indirect ∈ pathSlots l := by
        simp [pathSlots, hdirect, hsingle]
      exact hpatch.map hown (hpath _ hslot) hdirect
    · exact hpatch.sums hown
  · obtain ⟨b, fs1, c, fs2, hfirst, hsecond, hrange, hrange2, buf2, buf, hbuf2, hbuf,
      rfl, rfl⟩ := setDouble_ok h
    have hgrant := orAlloc_blockGranted hown.zero hown.bitmap hfirst
    have hgrant2 := orAlloc_blockGranted (fun ho => hown.zero (hgrant.offered _ ho))
      (fun ho => hown.bitmap (hgrant.offered _ ho)) hsecond
    have hentry : (ptr (fs1.device.block b) ((l - 10 - 512) / 512)).1 =
        (pointerAt fs.device x (.level1 ((l - 10 - 512) / 512))).1 :=
      hgrant.words _
    rw [hentry] at hgrant2
    have hpatch : LevelPatch fs fs1 fs2 x b c ((l - 10 - 512) / 512)
        ((l - 10 - 512) % 512) (phys, cs) buf buf2 :=
      ⟨hgrant, hgrant2, hrange, hrange2, by omega, by omega, hbuf2, hbuf⟩
    constructor
    · intro hpath
      have hslots : pathSlots l = [.double, .level1 ((l - 10 - 512) / 512)] := by
        simp [pathSlots, hdirect, hsingle]
      rw [hslots, List.forall_mem_cons, List.forall_mem_singleton] at hpath
      exact hpatch.map hown hpath.1 hpath.2 hdirect hsingle hdouble
    · exact hpatch.sums hown
  · simp [err] at h

end

/-- A small volume on which only the three pointer blocks hold anything: the
double-indirect block five and, behind its first entry, block six. -/
def pointerDevice : Disk :=
  (setBlock { totalSectors := 128, data := fun _ => zero } 5
    (setPtr zero 0 (6, 0))).setBlock 6 (setPtr zero 0 (7, 0))

def pointerVolume (bitmap : Block) : ZiqaFs where
  device := pointerDevice.setBlock bitmapBlock bitmap
  sb :=
    { magic := 0
      totalBlocks := 16
      inodeCount := 0
      firstDataBlock := 5
      blockSize := 4096
      flags := 0
      freeBlocks := 8
      freeInodes := 0
      reserved := zero }

def pointerInode : Inode := { freshInode 0 0 with doubleIndirect := 5 }

variable (bitmap : Block)

theorem pointerAt_pointerVolume (s : PointerSlot) :
    pointerAt (pointerVolume bitmap).device pointerInode s = (match s with
        | .indirect => 0
        | .double => 5
        | .level1 e => if e = 0 then 6 else 0, 0) := by
  cases s with
  | indirect => rfl
  | double => rfl
  | level1 e =>
    have hblock : (pointerVolume bitmap).device.block 5 = setPtr zero 0 (6, 0) := by
      rw [pointerVolume, block_setBlock_ne _ _ (by decide), pointerDevice,
        block_setBlock_ne _ _ (by decide), block_setBlock_self]
    have hword : ∀ w, (pointerVolume bitmap).device.wordOf 5 w =
        if w = 0 then 6 else 0 := by
      intro w
      rw [wordOf_of_ne (by decide), hblock, word_setPtr _ (by decide)]
      simp
    change ((pointerVolume bitmap).device.wordOf 5 (2 * e),
      (pointerVolume bitmap).device.wordOf 5 (2 * e + 1)) = _
    rw [hword, hword]
    simp

theorem checksumsMatch_pointerVolume :
    ChecksumsMatch (pointerVolume bitmap).device pointerInode := by
  intro s _
  rw [pointerAt_pointerVolume]
  rfl

theorem pointersDistinct_pointerVolume :
    PointersDistinct (pointerVolume bitmap).device pointerInode := by
  intro s t hne heq
  rw [pointerAt_pointerVolume] at hne
  rw [pointerAt_pointerVolume, pointerAt_pointerVolume] at heq
  cases s <;> cases t <;> grind

def pointerBitmap : Block := setBitmapBit (setBitmapBit zero 5) 6

theorem pointersKept_pointerVolume : PointersKept (pointerVolume pointerBitmap) pointerInode := by
  have hmarked : ∀ b : UInt32, b = 5 ∨ b = 6 → marked (pointerVolume pointerBitmap).device b := by
    intro b hb
    rw [pointerVolume, marked, Disk.block_setBlock_self]
    rcases hb with rfl | rfl <;> decide +kernel
  constructor
  case zero => exact fun h => absurd h.1 (by decide)
  case bitmap => exact fun h => absurd h.1 (by decide)
  case pointer =>
    intro s hne
    rw [pointerAt_pointerVolume] at hne ⊢
    cases s with
    | indirect => exact absurd rfl hne
    | double => exact ⟨by decide, fun h => h.2.2.2 (hmarked 5 (Or.inl rfl))⟩
    | level1 e =>
      by_cases he : e = 0
      · simp only [he, ↓reduceIte]
        exact ⟨by decide, fun h => h.2.2.2 (hmarked 6 (Or.inr rfl))⟩
      · exact absurd (if_neg he) hne

theorem inodeSetBlock_pointerVolume (cs : UInt32) (k : Nat) (p : UInt32 × UInt32)
    (h : ((inodeSetBlock pointerInode 10 9 cs >>= fun x => inodeGetBlock x k).run
      (pointerVolume bitmap)).1 = .ok p) :
    ∃ x fs, (inodeSetBlock pointerInode 10 9 cs).run (pointerVolume bitmap) =
      (.ok x, fs) ∧ ((inodeGetBlock x k).run fs).1 = .ok p := by
  obtain ⟨x, fs, hset, hget⟩ := run_bind_eq_ok_iff.mp (Prod.ext h rfl : _ = (Except.ok p, _))
  exact ⟨x, fs, hset, by rw [hget]⟩

/-- The law of the block map: after `inode_set_block` the lookup of `l` answers
with the new block and checksum, every other lookup answers as before, and all
checksums match again. -/
theorem inodeGetBlock_inodeSetBlock (fs fs' : ZiqaFs) (x x' : Inode) (l : Nat)
    (phys cs : UInt32) (hsums : ChecksumsMatch fs.device x)
    (hdistinct : PointersDistinct fs.device x) (hkept : PointersKept fs x)
    (h : (inodeSetBlock x l phys cs).run fs = (.ok x', fs')) :
    ((inodeGetBlock x' l).run fs').1 = .ok (phys, cs) ∧ (∀ k, k ≠ l →
        ((inodeGetBlock x' k).run fs').1 = ((inodeGetBlock x k).run fs).1) ∧
      ChecksumsMatch fs'.device x' := by
  have hrebound := inodeSetBlock_rebound ⟨hkept, hdistinct⟩ h
  have hmap := hrebound.map fun s _ => hsums s
  simp only [inodeGetBlock_run]
  refine ⟨?_, fun k hk => ?_, hrebound.sums hsums⟩
  · rw [hmap, if_pos rfl]
  · rw [hmap, if_neg hk]

theorem inodeGetBlock_inodeSetBlock_pointerVolume :
    ∃ x fs, (inodeSetBlock pointerInode 10 9 3).run (pointerVolume pointerBitmap) = (.ok x, fs) ∧
      ((inodeGetBlock x 10).run fs).1 = .ok (9, 3) ∧
      (∀ k, k ≠ 10 → ((inodeGetBlock x k).run fs).1 =
        ((inodeGetBlock pointerInode k).run (pointerVolume pointerBitmap)).1) ∧
      ChecksumsMatch fs.device x := by
  obtain ⟨x, fs, hset, -⟩ := inodeSetBlock_pointerVolume pointerBitmap 3 522 (7, 0)
    (by decide +kernel)
  exact ⟨x, fs, hset, inodeGetBlock_inodeSetBlock _ fs _ x 10 9 3
    (checksumsMatch_pointerVolume _) (pointersDistinct_pointerVolume _)
    pointersKept_pointerVolume hset⟩

/-- On a volume whose bitmap lacks the pointer blocks of the file, the new
indirect block is the double-indirect block, and block 522 is lost. -/
theorem inodeGetBlock_unmarkedVolume :
    ¬ ∀ (fs fs' : ZiqaFs) (x x' : Inode) (l : Nat) (phys cs : UInt32),
      ChecksumsMatch fs.device x → PointersDistinct fs.device x →
      l < 10 + 512 + 512 * 512 → (∀ s, phys ≠ (pointerAt fs.device x s).1) →
      (inodeSetBlock x l phys cs).run fs = (.ok x', fs') →
      ((inodeGetBlock x' l).run fs').1 = .ok (phys, cs) ∧ (∀ k, k ≠ l →
          ((inodeGetBlock x' k).run fs').1 = ((inodeGetBlock x k).run fs).1) ∧
        ChecksumsMatch fs'.device x' := by
  intro hlaw
  obtain ⟨x, fs, hset, hget⟩ := inodeSetBlock_pointerVolume zero 0 522 (0, 0)
    (by decide +kernel)
  have hbefore : ((inodeGetBlock pointerInode 522).run (pointerVolume zero)).1 =
      .ok (7, 0) := by decide +kernel
  have hunused : ∀ s, 9 ≠ (pointerAt (pointerVolume zero).device pointerInode s).1 := by
    intro s
    rw [pointerAt_pointerVolume]
    cases s <;> grind
  obtain ⟨-, hothers, -⟩ := hlaw _ fs _ x 10 9 0 (checksumsMatch_pointerVolume _)
    (pointersDistinct_pointerVolume _) (by decide) hunused hset
  have hsame := hothers 522 (by decide)
  rw [hget, hbefore] at hsame
  exact absurd hsame (by decide)

end ZiqaKernel
