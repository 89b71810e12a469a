/-
What allocating and freeing a data block does to a volume.
-/
import ZiqaKernel.ZiqaFsOwnership

namespace ZiqaKernel

open Fallible

variable {n : Nat}

/-- Block `b` was free and has been marked and zeroed. -/
structure Allocated (n : Nat) (d d' : Disk) (b : UInt32) : Prop where
  fresh : ¬ Taken d b
  only : ∀ c, marked d' c → marked d c ∨ c = b
  marked : marked d' b
  extends_ : Extends n d d'
  zero : d'.block b = Image.zero
  inRange : d.InRange b

variable {fs fs' : ZiqaFs} {b : UInt32}

theorem allocDataBlock_ok (h : allocDataBlock.run fs = (.ok b, fs')) :
    bitmapFindClear (fs.device.block bitmapBlock) fs.sb.firstDataBlock.toNat = some b.toNat ∧
      b.toNat < fs.sb.totalBlocks.toNat ∧
      fs.device.InRange bitmapBlock ∧ fs.device.InRange b ∧
      fs' = { device := (fs.device.setBlock bitmapBlock
                (setBitmapBit (fs.device.block bitmapBlock) b.toNat)).setBlock b
                Image.zero
              sb := { fs.sb with freeBlocks := pred32 fs.sb.freeBlocks } } := by
  rw [allocDataBlock, run_bind_eq_ok_iff] at h
  obtain ⟨bitmap, fs1, hread, h⟩ := h
  obtain ⟨hrange, rfl, rfl⟩ := readBlock_eq_ok_iff.mp hread
  rw [run_bind, run_gets] at h
  simp only at h
  cases hfind : bitmapFindClear (fs1.device.block bitmapBlock) fs1.sb.firstDataBlock.toNat with
  | none => simp [hfind, err] at h
  | some i =>
    have hi := bitmapFindClear_some hfind
    have hnat : (UInt32.ofNat i).toNat = i := by
      rw [UInt32.toNat_ofNat']
      omega
    simp only [hfind] at h
    by_cases htotal : i < fs1.sb.totalBlocks.toNat
    · rw [if_pos htotal, run_bind_eq_ok_iff] at h
      obtain ⟨u, fs2, hmark, h⟩ := h
      obtain ⟨-, rfl⟩ := writeBlock_eq_ok_iff.mp hmark
      rw [run_bind_eq_ok_iff] at h
      obtain ⟨u, fs3, hzero, h⟩ := h
      obtain ⟨hrange', rfl⟩ := writeBlock_eq_ok_iff.mp hzero
      rw [run_bind, run_modify] at h
      obtain ⟨rfl, rfl⟩ := run_pure_eq_ok_iff.mp h
      rw [hnat]
      exact ⟨rfl, htotal, hrange, hrange', rfl⟩
    · simp [htotal, err] at h

theorem marked_setBitmapBit (d : Disk) (hb : b.toNat < 32768) (c : UInt32) :
    marked (d.setBlock bitmapBlock
      (setBitmapBit (d.block bitmapBlock) b.toNat)) c ↔ marked d c ∨ c = b := by
  rw [marked, Disk.block_setBlock_self, bitSet_setBitmapBit _ hb, marked]
  simp [UInt32.toNat_inj]

theorem marked_clearBitmapBit (d : Disk) (hb : b.toNat < 32768) (c : UInt32) :
    marked (d.setBlock bitmapBlock (clearBitmapBit (d.block bitmapBlock) b.toNat)) c ↔
      marked d c ∧ c ≠ b := by
  rw [marked, Disk.block_setBlock_self, bitSet_clearBitmapBit _ hb, marked]
  simp [UInt32.toNat_inj]

structure SameGeometry (fs fs' : ZiqaFs) : Prop where
  firstDataBlock : fs'.sb.firstDataBlock = fs.sb.firstDataBlock
  totalBlocks : fs'.sb.totalBlocks = fs.sb.totalBlocks

theorem SameGeometry.refl (fs : ZiqaFs) : SameGeometry fs fs := ⟨rfl, rfl⟩

theorem SameGeometry.trans {fs'' : ZiqaFs} (h : SameGeometry fs fs')
    (h' : SameGeometry fs' fs'') : SameGeometry fs fs'' :=
  ⟨h'.firstDataBlock.trans h.firstDataBlock, h'.totalBlocks.trans h.totalBlocks⟩

theorem allocDataBlock_spec (hres : Reserved fs) (h : allocDataBlock.run fs = (.ok b, fs')) :
    Allocated fs.sb.totalBlocks.toNat fs.device fs'.device b ∧ SameGeometry fs fs' := by
  obtain ⟨hfind, htotal, -, hrange, rfl⟩ := allocDataBlock_ok h
  obtain ⟨hfirst, hsize, hclear⟩ := bitmapFindClear_some hfind
  have hb : b.toNat < 32768 := by omega
  have hunmarked : ¬ marked fs.device b := by
    rw [marked, hclear]
    simp
  have hdata : ¬ b.toNat < 5 := fun hlt => hunmarked (hres b hlt hfirst)
  have hne : b ≠ bitmapBlock := by
    rintro rfl
    exact hdata (by decide)
  have hfresh : ¬ Taken fs.device b := not_or.mpr ⟨hdata, hunmarked⟩
  refine ⟨⟨hfresh, fun c hc => ?_, ?_, ?_, ?_, hrange⟩, ⟨rfl, rfl⟩⟩
  · rwa [marked_setBlock _ hne, marked_setBitmapBit _ hb] at hc
  · rw [marked_setBlock _ hne, marked_setBitmapBit _ hb]
    exact Or.inr rfl
  · apply Extends.setBlock _ hfresh
    refine ⟨rfl, fun c hc => ?_, fun c hc => ?_, fun c hc _ => Disk.block_setBlock_ne _ _ hc⟩
    · rw [marked_setBitmapBit _ hb] at hc
      rcases hc with hc | rfl
      · exact Or.inl hc
      · exact Or.inr htotal
    · rw [marked_setBitmapBit _ hb]
      exact Or.inl hc
  · exact Disk.block_setBlock_self _ _ _

theorem Reserved.extends (h : Reserved fs)
    (hgeo : SameGeometry fs fs') (hext : Extends n fs.device fs'.device) :
    Reserved fs' := by
  intro b hb hfirst
  rw [hgeo.firstDataBlock] at hfirst
  exact hext.marked b (h b hb hfirst)

/-- The pointer block to use: the recorded one, or a new one that is zero and
so holds the same words as a missing one. -/
structure Provided (n : Nat) (d d' : Disk) (recorded b : UInt32) : Prop where
  extends_ : Extends n d d'
  ne_zero : b ≠ 0
  words : ∀ w, (d'.block b).word w = d.wordOf recorded w
  source : b = recorded ∨ recorded = 0 ∧ ¬ Taken d b ∧ marked d' b

theorem orAlloc_spec {recorded : UInt32}
    (hres : Reserved fs) (h : (orAlloc recorded).run fs = (.ok b, fs')) :
    Provided fs.sb.totalBlocks.toNat fs.device fs'.device recorded b ∧ SameGeometry fs fs' := by
  unfold orAlloc at h
  by_cases hrec : recorded = 0
  · rw [if_pos hrec] at h
    obtain ⟨halloc, hgeo⟩ := allocDataBlock_spec hres h
    refine ⟨⟨halloc.extends_, ?_, ?_, Or.inr ⟨hrec, halloc.fresh, halloc.marked⟩⟩, hgeo⟩
    · rintro rfl
      exact halloc.fresh (Or.inl (by decide))
    · intro w
      rw [halloc.zero, Image.word_zero, hrec, Disk.wordOf_zero]
  · rw [if_neg hrec] at h
    obtain ⟨rfl, rfl⟩ := run_pure_eq_ok_iff.mp h
    refine ⟨⟨Extends.refl _, hrec, ?_, Or.inl rfl⟩, SameGeometry.refl _⟩
    intro w
    rw [Disk.wordOf_of_ne hrec]

theorem freeDataBlock_ok {u : Unit} (h : (freeDataBlock b).run fs = (.ok u, fs')) :
    b.toNat < 32768 ∧
      fs' = { device := fs.device.setBlock bitmapBlock
                (clearBitmapBit (fs.device.block bitmapBlock) b.toNat)
              sb := { fs.sb with freeBlocks := succ32 fs.sb.freeBlocks } } := by
  rw [freeDataBlock, run_bind, run_gets] at h
  simp only at h
  by_cases hbounds : b < fs.sb.firstDataBlock ∨ b ≥ fs.sb.totalBlocks
  · simp [hbounds, err] at h
  · rw [if_neg hbounds, run_bind_eq_ok_iff] at h
    obtain ⟨bitmap, fs1, hread, h⟩ := h
    obtain ⟨-, rfl, rfl⟩ := readBlock_eq_ok_iff.mp hread
    by_cases hb : b.toNat / 8 < 4096
    · rw [if_pos hb, run_bind_eq_ok_iff] at h
      obtain ⟨u, fs2, hclear, h⟩ := h
      obtain ⟨-, rfl⟩ := writeBlock_eq_ok_iff.mp hclear
      simp only [run_modify, Prod.mk.injEq] at h
      exact ⟨by omega, h.2.symm⟩
    · simp [hb, faulted] at h

end ZiqaKernel
