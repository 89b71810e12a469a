/-
Volumes as `format` leaves them: the bitmap marks only blocks of the volume, and
every block of the volume lies on the device.  On such a volume a device access
to a block in use cannot fail, so the only errors left are those the file system
itself raises.
-/
import ZiqaKernel.ZiqaFsInodeTable
import ZiqaKernel.ZiqaFsWrite

namespace ZiqaKernel

open Fallible

/-- Every slot that may hold a block number.  In an indirect block this is
every word, because `inode_alloc_block` and `free_inode_blocks` read it as plain
block numbers. -/
def wordLayout : Layout where
  counts mode
    | .direct _ | .indirect | .double | .single _ => true
    | .level1 w | .level2 w _ => mode = inodeModeDir ∨ w % 2 = 0
  direct _ _ := rfl
  indirect _ := rfl
  double _ := rfl
  single _ _ := rfl
  level1 _ k := by simp
  level2 _ k j := by simp
  parent _ _ _ h := h
  checksums _ k hmode := by simp [hmode]

theorem wordLayout_of_pairLayout {mode : UInt16} {s : Slot}
    (h : pairLayout.counts mode s = true) : wordLayout.counts mode s = true := by
  cases s with
  | direct i => rfl
  | indirect => rfl
  | double => rfl
  | single w => rfl
  | level1 w =>
    have heven : w % 2 = 0 := of_decide_eq_true h
    simp [wordLayout, heven]
  | level2 w v =>
    have heven : w % 2 = 0 ∧ v % 2 = 0 := of_decide_eq_true h
    simp [wordLayout, heven]

structure Healthy (fs : ZiqaFs) : Prop where
  first : fs.sb.firstDataBlock = 5
  bounded : ∀ b, marked fs.device b →
    b.toNat < 5 ∨ b.toNat < fs.sb.totalBlocks.toNat
  inRange : ∀ b : UInt32, b.toNat < 5 ∨ b.toNat < fs.sb.totalBlocks.toNat →
    fs.device.InRange b

variable {fs fs' fs'' : ZiqaFs} {x x' x'' : Inode} {b : UInt32}

theorem Healthy.reserved (h : Healthy fs) : Reserved fs := by
  intro b hb hfirst
  rw [h.first] at hfirst
  exact absurd (Nat.lt_of_le_of_lt hfirst hb) (by decide)

theorem Healthy.step (h : Healthy fs) (hgeo : SameGeometry fs fs')
    (hsec : fs'.device.totalSectors = fs.device.totalSectors)
    (hupper : ∀ b, marked fs'.device b →
      marked fs.device b ∨ b.toNat < fs.sb.totalBlocks.toNat) : Healthy fs' where
  first := hgeo.firstDataBlock.trans h.first
  bounded b hb := by
    rw [hgeo.totalBlocks]
    exact (hupper b hb).elim (h.bounded b) Or.inr
  inRange b hb := by
    rw [hgeo.totalBlocks] at hb
    exact (Disk.inRange_congr hsec b).mpr (h.inRange b hb)

theorem Healthy.inRange_of_inUse (h : Healthy fs) (hb : InUse fs.device b) :
    fs.device.InRange b :=
  h.inRange b (h.bounded b hb.2)

theorem marked_lt {d : Disk} (h : marked d b) : b.toNat < 32768 := by
  by_contra hge
  rw [marked, bitSet_eq_testBit, Image.get_of_le _ (by omega)] at h
  simp at h

theorem readBlock_run_ok (h : fs.device.InRange b) :
    (readBlock b).run fs = (.ok (fs.device.block b), fs) := by
  rw [run_readBlock, if_pos h]

theorem writeBlock_run_ok (h : fs.device.InRange b) (buf : Block) :
    (writeBlock b buf).run fs =
      (.ok (), { fs with device := fs.device.setBlock b buf }) := by
  rw [run_writeBlock, if_pos h]

/-- An allocation fails when no bit inside the volume is clear, and then it
changes nothing. -/
theorem allocDataBlock_error {e : Failure} (hh : Healthy fs)
    (h : allocDataBlock.run fs = (.error e, fs')) :
    fs' = fs ∧ ∀ i, bitmapFindClear (fs.device.block bitmapBlock)
      fs.sb.firstDataBlock.toNat = some i → fs.sb.totalBlocks.toNat ≤ i := by
  rw [allocDataBlock, run_bind_of_ok
    (readBlock_run_ok (hh.inRange _ (Or.inl (by decide)))),
    run_bind, run_gets] at h
  simp only at h
  cases hfind : bitmapFindClear (fs.device.block bitmapBlock)
      fs.sb.firstDataBlock.toNat with
  | none =>
    simp only [hfind, err, run_fail, Prod.mk.injEq] at h
    exact ⟨h.2.symm, fun _ hsome => absurd hsome (by simp)⟩
  | some i =>
    simp only [hfind] at h
    by_cases htotal : i < fs.sb.totalBlocks.toNat
    · have hi := bitmapFindClear_some hfind
      have hnat : (UInt32.ofNat i).toNat = i := by
        rw [UInt32.toNat_ofNat']
        omega
      rw [if_pos htotal, run_bind_of_ok
        (writeBlock_run_ok (hh.inRange _ (Or.inl (by decide))) _)] at h
      have hrange : ({ fs with
          device := fs.device.setBlock bitmapBlock
            (setBitmapBit (fs.device.block bitmapBlock) i) } :
          ZiqaFs).device.InRange (UInt32.ofNat i) :=
        hh.inRange _ (Or.inr (by rw [hnat]; exact htotal))
      rw [run_bind_of_ok (writeBlock_run_ok hrange _),
        run_bind, run_modify] at h
      simp at h
    · simp only [htotal, ↓reduceIte, err, run_fail,
        Prod.mk.injEq] at h
      refine ⟨h.2.symm, fun j hj => ?_⟩
      rw [Option.some.injEq] at hj
      exact hj ▸ Nat.not_lt.mp htotal

theorem orAlloc_error {e : Failure} (hh : Healthy fs)
    (h : (orAlloc b).run fs = (.error e, fs')) : fs' = fs := by
  unfold orAlloc at h
  split_ifs at h
  · exact (allocDataBlock_error hh h).1
  · simp at h

/-- Block numbers that `free_data_block` accepts. -/
structure Freeable (fs : ZiqaFs) (b : UInt32) : Prop where
  data : 5 ≤ b.toNat
  total : b.toNat < fs.sb.totalBlocks.toNat
  bitmap : b.toNat < 32768

theorem Healthy.freeable (hh : Healthy fs) (hb : InUse fs.device b) :
    Freeable fs b where
  data := hb.1
  total := by
    have h5 := hb.1
    have htotal := hh.bounded b hb.2
    omega
  bitmap := marked_lt hb.2

theorem freeDataBlock_run (hh : Healthy fs) (hb : Freeable fs b) :
    (freeDataBlock b).run fs = (.ok (),
      { device := fs.device.setBlock bitmapBlock
          (clearBitmapBit (fs.device.block bitmapBlock) b.toNat)
        sb := { fs.sb with freeBlocks := succ32 fs.sb.freeBlocks } }) := by
  have hlow : ¬ (b < fs.sb.firstDataBlock ∨ b ≥ fs.sb.totalBlocks) := by
    rw [hh.first]
    rintro (hlt | hge)
    · exact absurd (UInt32.lt_iff_toNat_lt.mp hlt) (Nat.not_lt.mpr hb.data)
    · exact absurd (UInt32.le_iff_toNat_le.mp hge) (Nat.not_le.mpr hb.total)
  have hsize := hb.bitmap
  rw [freeDataBlock, run_bind, run_gets]
  simp only
  rw [if_neg hlow, run_bind_of_ok
    (readBlock_run_ok (hh.inRange _ (Or.inl (by decide)))), if_pos (by omega),
    run_bind_of_ok
      (writeBlock_run_ok (hh.inRange _ (Or.inl (by decide))) _),
    run_modify]

/-- Only the file `x`, now `x'`, and blocks that nothing referenced have been
touched. -/
structure Kept (fs fs' : ZiqaFs) (x x' : Inode) : Prop where
  rewrites : Rewrites wordLayout fs.sb.totalBlocks.toNat fs.device fs'.device
    x x'
  geometry : SameGeometry fs fs'

/-- The references of `x` in the state `fs`. -/
abbrev OwnTree (fs : ZiqaFs) (x : Inode) : Prop :=
  Exclusive (tree wordLayout fs.device x) (InUse fs.device)

theorem Kept.refl (hx : OwnTree fs x) : Kept fs fs x x :=
  ⟨Rewrites.refl hx, SameGeometry.refl fs⟩

theorem Kept.trans (h : Kept fs fs' x x') (h' : Kept fs' fs'' x' x'') :
    Kept fs fs'' x x'' := by
  refine ⟨h.rewrites.trans ?_, h.geometry.trans h'.geometry⟩
  rw [← h.geometry.totalBlocks]
  exact h'.rewrites

theorem Kept.healthy (h : Kept fs fs' x x') (hh : Healthy fs) : Healthy fs' :=
  hh.step h.geometry h.rewrites.sectors h.rewrites.upper

theorem Rewrites.of_slots {L : Layout} {n : Nat} {d d' : Disk}
    (hx : Exclusive (tree L d x) (InUse d))
    (hsec : d'.totalSectors = d.totalSectors) (hmode : x'.mode = x.mode)
    (home : UInt32 → Slot)
    (hslot : ∀ s, tree L d' x' s ≠ 0 → tree L d' x' s = tree L d x s ∨
      (¬ Taken d (tree L d' x' s) ∧ marked d' (tree L d' x' s) ∧
        home (tree L d' x' s) = s))
    (hupper : ∀ b, marked d' b → marked d b ∨ b.toNat < n)
    (hmarks : ∀ b, marked d b → marked d' b)
    (hkeeps : ∀ b, b ≠ bitmapBlock → Taken d b → Unreferenced L d x b →
      d'.block b = d.block b) : Rewrites L n d d' x x' where
  sectors := hsec
  mode := hmode
  exclusive := by
    apply hx.extend
    · intro s hs huse
      rcases hslot s hs with hsame | ⟨hfresh, -, -⟩
      · exact hsame
      · exact absurd huse.taken hfresh
    · intro s s' hs hunused heq
      have hs' : tree L d' x' s' ≠ 0 := heq ▸ hs
      rcases hslot s hs with hsame | ⟨-, -, hhome⟩
      · rw [hsame] at hs hunused
        exact absurd (hx.used hs) hunused
      · rcases hslot s' hs' with hsame' | ⟨-, -, hhome'⟩
        · rw [heq, hsame'] at hunused
          exact absurd (hx.used (hsame' ▸ hs')) hunused
        · rw [← hhome, ← hhome', heq]
    · intro s hs
      rcases hslot s hs with hsame | ⟨hfresh, hmark, -⟩
      · rw [hsame] at hs ⊢
        exact ⟨(hx.used hs).1, hmarks _ (hx.used hs).2⟩
      · have hlow : ¬ (tree L d' x' s).toNat < 5 := fun h => hfresh (Or.inl h)
        exact ⟨by omega, hmark⟩
  origin s hs htaken := by
    rcases hslot s hs with hsame | ⟨hfresh, -, -⟩
    · exact ⟨s, hsame⟩
    · exact absurd htaken hfresh
  upper := hupper
  marks b hb _ := hmarks b hb
  keeps := hkeeps

/-- `x` names every block that `x0` names itself. -/
structure Inode.Covers (x x0 : Inode) : Prop where
  mode : x.mode = x0.mode
  blocks : ∀ i, x0.blocks i ≠ 0 → x.blocks i = x0.blocks i
  indirect : x0.indirect ≠ 0 → x.indirect = x0.indirect
  double : x0.doubleIndirect ≠ 0 → x.doubleIndirect = x0.doubleIndirect

theorem Inode.Covers.refl (x : Inode) : x.Covers x :=
  ⟨rfl, fun _ _ => rfl, fun _ => rfl, fun _ => rfl⟩

theorem Inode.Covers.refAt_eq {x0 : Inode} {d : Disk} (h : x.Covers x0)
    {s : Slot} (hs : refAt d x0 s ≠ 0) : refAt d x0 s = refAt d x s := by
  have hword : ∀ {b c : UInt32} {w : Nat}, (b ≠ 0 → c = b) →
      d.wordOf b w ≠ 0 → d.wordOf b w = d.wordOf c w := by
    intro b c w hbc hne
    by_cases hb : b = 0
    · simp [hb] at hne
    · rw [hbc hb]
  cases s with
  | direct i => exact (h.blocks i hs).symm
  | indirect => exact (h.indirect hs).symm
  | double => exact (h.double hs).symm
  | single w => exact hword h.indirect hs
  | level1 w => exact hword h.double hs
  | level2 w v =>
    refine hword (fun hne => ?_) hs
    exact (hword h.double hne).symm

theorem Rewrites.uncommitted {L : Layout} {n : Nat} {d d' : Disk}
    (h : Rewrites L n d d' x x') (hcovers : x'.Covers x) :
    Rewrites L n d d' x x := by
  have htree : ∀ s, tree L d' x s ≠ 0 → tree L d' x s = tree L d' x' s := by
    intro s hs
    unfold tree at hs ⊢
    rw [h.mode]
    split_ifs at hs ⊢ with hcounts
    · exact hcovers.refAt_eq hs
    · exact absurd rfl hs
  refine ⟨h.sectors, rfl, ?_, ?_, h.upper, h.marks, h.keeps⟩
  · exact h.exclusive.restrict htree fun s hs =>
      htree s hs ▸ h.exclusive.used (htree s hs ▸ hs)
  · intro s hs htaken
    have heq := htree s hs
    rw [heq] at hs htaken ⊢
    exact h.origin s hs htaken

theorem Kept.uncommitted (h : Kept fs fs' x x') (hcovers : x'.Covers x) :
    Kept fs fs' x x :=
  ⟨h.rewrites.uncommitted hcovers, h.geometry⟩

section

variable {L : Layout} {n w : Nat} {d d1 : Disk} {p : UInt32} {c : Block}

/-- The contents `c` given to the pointer block `p` differ from what it held at
most in word `w`, which is cleared or names a fresh zeroed block. -/
structure Patched (n : Nat) (d d1 : Disk) (p : UInt32) (c : Block) (w : Nat) :
    Prop where
  extends_ : Extends n d d1
  words : ∀ v, c.word v ≠ 0 → c.word v = (d.block p).word v ∨
    (v = w ∧ ¬ Taken d (c.word v) ∧ marked d1 (c.word v) ∧
      d1.block (c.word v) = Image.zero)

theorem Patched.block_ne (h : Patched n d d1 p c w) {q : UInt32}
    (hq : InUse d q) (hne : q ≠ p) :
    (d1.setBlock p c).block q = d.block q := by
  rw [Disk.block_setBlock_ne _ _ hne,
    h.extends_.keeps q hq.ne_bitmapBlock hq.taken]

theorem Patched.rewrites {sp : Slot} (home : Slot)
    (h : Patched n d d1 p c w) (hx : Exclusive (tree L d x) (InUse d))
    (hcounts : L.counts x.mode sp = true) (hsp : refAt d x sp = p)
    (hp : p ≠ 0)
    (hslot : ∀ s, L.counts x.mode s = true →
      refAt (d1.setBlock p c) x s ≠ 0 →
      refAt (d1.setBlock p c) x s = refAt d x s ∨
      (s = home ∧ ¬ Taken d (refAt (d1.setBlock p c) x s) ∧
        marked d1 (refAt (d1.setBlock p c) x s))) :
    Rewrites L n d (d1.setBlock p c) x x := by
  have hpuse : InUse d p := hsp ▸ hx.inUse_refAt hcounts (hsp ▸ hp)
  have hsec : (d1.setBlock p c).totalSectors = d.totalSectors :=
    h.extends_.sectors
  apply Rewrites.of_slots hx hsec rfl (fun _ => home)
  · intro s hs
    have hs' : L.counts x.mode s = true := by
      by_contra hno
      exact hs (if_neg hno)
    rw [tree_of_counts hs'] at hs
    rw [tree_of_counts hs', tree_of_counts hs']
    rcases hslot s hs' hs with hsame | ⟨rfl, hfresh, hmark⟩
    · exact Or.inl hsame
    · exact Or.inr ⟨hfresh, (marked_setBlock _ hpuse.ne_bitmapBlock _ _).mpr hmark,
        rfl⟩
  · intro b hb
    rw [marked_setBlock _ hpuse.ne_bitmapBlock] at hb
    exact h.extends_.upper b hb
  · intro b hb
    rw [marked_setBlock _ hpuse.ne_bitmapBlock]
    exact h.extends_.marked b hb
  · intro b hne htaken href
    have hbp : b ≠ p := by
      rintro rfl
      rw [← tree_of_counts hcounts] at hsp
      exact href sp (hsp ▸ hp) hsp
    rw [Disk.block_setBlock_ne _ _ hbp, h.extends_.keeps b hne htaken]

theorem Patched.block_refAt (sp s : Slot) (h : Patched n d d1 (refAt d x sp) c w)
    (hx : Exclusive (tree L d x) (InUse d)) (hsp : L.counts x.mode sp = true) (hs : s ≠ sp)
    (hcounts : L.counts x.mode s = true) (hne : refAt d x s ≠ 0) :
    (d1.setBlock (refAt d x sp) c).block (refAt d x s) = d.block (refAt d x s) := by
  refine h.block_ne (hx.inUse_refAt hcounts hne) ?_
  rw [← tree_of_counts hcounts] at hne ⊢
  rw [← tree_of_counts hsp]
  exact hx.ne hne hs

theorem Patched.wordOf (h : Patched n d d1 p c w) (hp : p ≠ 0) {v : Nat}
    (hne : (d1.setBlock p c).wordOf p v ≠ 0) :
    (d1.setBlock p c).wordOf p v = d.wordOf p v ∨
      (v = w ∧ ¬ Taken d ((d1.setBlock p c).wordOf p v) ∧
        marked d1 ((d1.setBlock p c).wordOf p v)) := by
  rw [Disk.wordOf_of_ne hp, Disk.block_setBlock_self] at hne ⊢
  rw [Disk.wordOf_of_ne hp]
  exact (h.words v hne).imp_right fun hnew => ⟨hnew.1, hnew.2.1, hnew.2.2.1⟩

theorem Patched.rewrites_indirect (h : Patched n d d1 x.indirect c w)
    (hx : Exclusive (tree L d x) (InUse d)) (hp : x.indirect ≠ 0) :
    Rewrites L n d (d1.setBlock x.indirect c) x x := by
  have hother := fun s => Patched.block_refAt .indirect s h hx (L.indirect _)
  have hdouble : ∀ u, (d1.setBlock x.indirect c).wordOf x.doubleIndirect u =
      d.wordOf x.doubleIndirect u :=
    Disk.wordOf_congr (hother .double (by simp) (L.double _))
  refine h.rewrites (.single w) hx (L.indirect _) rfl hp fun s hcounts hne => ?_
  cases s with
  | direct i => exact Or.inl rfl
  | indirect => exact Or.inl rfl
  | double => exact Or.inl rfl
  | single v => exact (h.wordOf hp hne).imp_right (And.imp_left (congrArg Slot.single))
  | level1 v => exact Or.inl (hdouble v)
  | level2 u v =>
    refine Or.inl ?_
    change Disk.wordOf _ (Disk.wordOf _ _ _) _ = _
    rw [hdouble u]
    exact Disk.wordOf_congr
      (hother (.level1 u) (by simp) (L.parent _ u v hcounts)) v

theorem Patched.rewrites_double (h : Patched n d d1 x.doubleIndirect c w)
    (hx : Exclusive (tree L d x) (InUse d)) (hp : x.doubleIndirect ≠ 0) :
    Rewrites L n d (d1.setBlock x.doubleIndirect c) x x := by
  have hpuse : InUse d x.doubleIndirect :=
    hx.inUse_refAt (s := .double) (L.double _) hp
  have hother := fun s => Patched.block_refAt .double s h hx (L.double _)
  have hword : ∀ u, (d1.setBlock x.doubleIndirect c).wordOf x.doubleIndirect u =
      c.word u := by
    intro u
    rw [Disk.wordOf_of_ne hp, Disk.block_setBlock_self]
  refine h.rewrites (.level1 w) hx (L.double _) rfl hp fun s hcounts hne => ?_
  cases s with
  | direct i => exact Or.inl rfl
  | indirect => exact Or.inl rfl
  | double => exact Or.inl rfl
  | single v =>
    exact Or.inl (Disk.wordOf_congr
      (hother .indirect (by simp) (L.indirect _)) v)
  | level1 v => exact (h.wordOf hp hne).imp_right (And.imp_left (congrArg Slot.level1))
  | level2 u v =>
    have hv : refAt (d1.setBlock x.doubleIndirect c) x (.level2 u v) =
        (d1.setBlock x.doubleIndirect c).wordOf (c.word u) v := by
      change Disk.wordOf _ (Disk.wordOf _ _ _) _ = _
      rw [hword u]
    rw [hv] at hne ⊢
    by_cases hu : c.word u = 0
    · rw [hu, Disk.wordOf_zero] at hne
      exact absurd rfl hne
    · rcases h.words u hu with hsame | ⟨-, hfresh, -, hzero⟩
      · have hlevel : c.word u = refAt d x (.level1 u) :=
          hsame.trans (Disk.wordOf_of_ne hp u).symm
        refine Or.inl ?_
        rw [hlevel] at hu ⊢
        exact Disk.wordOf_congr (fun _ => hother (.level1 u) (by simp)
          (L.parent _ u v hcounts) hu) v
      · have hup : c.word u ≠ x.doubleIndirect := by
          intro heq
          exact hfresh (heq ▸ hpuse.taken)
        rw [Disk.wordOf_of_ne hu, Disk.block_setBlock_ne _ _ hup, hzero,
          Image.word_zero] at hne
        exact absurd rfl hne

theorem Patched.rewrites_level1 {u0 : Nat}
    (h : Patched n d d1 (refAt d x (.level1 u0)) c w)
    (hx : Exclusive (tree L d x) (InUse d))
    (hcounts0 : L.counts x.mode (.level1 u0) = true)
    (hp : refAt d x (.level1 u0) ≠ 0) :
    Rewrites L n d (d1.setBlock (refAt d x (.level1 u0)) c) x x := by
  have hother := fun s => Patched.block_refAt _ s h hx hcounts0
  have hdouble : ∀ u, (d1.setBlock (refAt d x (.level1 u0)) c).wordOf
      x.doubleIndirect u = d.wordOf x.doubleIndirect u :=
    Disk.wordOf_congr (hother .double (by simp) (L.double _))
  refine h.rewrites (.level2 u0 w) hx hcounts0 rfl hp fun s hcounts hne => ?_
  cases s with
  | direct i => exact Or.inl rfl
  | indirect => exact Or.inl rfl
  | double => exact Or.inl rfl
  | single v =>
    exact Or.inl (Disk.wordOf_congr
      (hother .indirect (by simp) (L.indirect _)) v)
  | level1 v => exact Or.inl (hdouble v)
  | level2 u v =>
    have hv : refAt (d1.setBlock (refAt d x (.level1 u0)) c) x (.level2 u v) =
        (d1.setBlock (refAt d x (.level1 u0)) c).wordOf
          (refAt d x (.level1 u)) v := by
      change Disk.wordOf _ (Disk.wordOf _ _ _) _ = _
      rw [hdouble u]
      rfl
    rw [hv] at hne ⊢
    by_cases hu : u = u0
    · subst hu
      exact (h.wordOf hp hne).imp_right (And.imp_left (congrArg (Slot.level2 u)))
    · exact Or.inl (Disk.wordOf_congr (hother (.level1 u)
        (by simpa using hu) (L.parent _ u v hcounts)) v)

end

end ZiqaKernel
