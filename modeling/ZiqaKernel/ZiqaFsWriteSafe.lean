/-
`write_file` when it may fail.  A round that fails has only taken blocks from
the free ones; but the rounds before it have freed the blocks they replaced, so
the call is harmless only if none of those is named by the stored inode, or if
no round fails.
-/
import ZiqaKernel.ZiqaFsSound

namespace ZiqaKernel

open Fallible (Spec)

variable {fs s s' : ZiqaFs} {x x' x0 : Inode} {b : UInt32} {l pos : Nat} {rest : List UInt8}
  {I : ZiqaFs → Prop} [Steady I]

/-- The data blocks that `alloc_data_block` can still hand out. -/
def freeSet (fs : ZiqaFs) : Finset Nat :=
  (Finset.Ico 5 (min fs.sb.totalBlocks.toNat 32768)).filter fun i =>
    bitSet (fs.device.block bitmapBlock) i = false

def freeCount (fs : ZiqaFs) : Nat := (freeSet fs).card

/-- From `fs` to `s` blocks have been allocated, at most `k` of them. -/
structure Grown (k : Nat) (fs s : ZiqaFs) : Prop where
  extends_ : Extends fs.sb.totalBlocks.toNat fs.device s.device
  geometry : SameGeometry fs s
  count : freeCount fs ≤ freeCount s + k

theorem Grown.refl (fs : ZiqaFs) : Grown 0 fs fs :=
  ⟨Extends.refl _, SameGeometry.refl fs, Nat.le_refl _⟩

theorem Grown.trans {j k : Nat} (h : Grown j fs s) (h' : Grown k s s') : Grown (j + k) fs s' where
  extends_ := h.extends_.trans (h.geometry.totalBlocks ▸ h'.extends_)
  geometry := h.geometry.trans h'.geometry
  count := by
    have h1 := h.count
    have h2 := h'.count
    omega

theorem Grown.mono {j k : Nat} (h : Grown j fs s) (hjk : j ≤ k) : Grown k fs s :=
  ⟨h.extends_, h.geometry, Nat.le_trans h.count (Nat.add_le_add_left hjk _)⟩

variable {k : Nat}

theorem Grown.healthy (h : Grown k fs s) (hh : Healthy fs) : Healthy s :=
  hh.step h.geometry h.extends_.sectors h.extends_.upper

theorem Grown.inUse (h : Grown k fs s) (hb : InUse fs.device b) : InUse s.device b :=
  ⟨hb.1, h.extends_.marked b hb.2⟩

theorem Grown.kept (h : Grown k fs s) (hx : OwnTree fs x) : Kept fs s x x := by
  refine ⟨Rewrites.of_slots hx h.extends_.sectors rfl (fun _ => .indirect)
    (fun t _ => Or.inl ?_) h.extends_.upper h.extends_.marked
    (fun c hne htaken _ => h.extends_.keeps c hne htaken), h.geometry⟩
  rw [(h.extends_.sameTree hx).tree_eq]

theorem freeCount_le (news : Finset UInt32) (hgeo : SameGeometry fs s)
    (h : ∀ c, marked s.device c → marked fs.device c ∨ c ∈ news) :
    freeCount fs ≤ freeCount s + news.card := by
  have hsub : freeSet fs ⊆ freeSet s ∪ news.image UInt32.toNat := by
    intro i hi
    simp only [freeSet, Finset.mem_filter, Finset.mem_Ico] at hi
    have hnat : (UInt32.ofNat i).toNat = i := by
      rw [UInt32.toNat_ofNat']
      omega
    rw [Finset.mem_union]
    by_cases hset : bitSet (s.device.block bitmapBlock) i = false
    · refine Or.inl ?_
      simp only [freeSet, Finset.mem_filter, Finset.mem_Ico, hgeo.totalBlocks]
      exact ⟨hi.1, hset⟩
    · have hmark : marked s.device (UInt32.ofNat i) := by
        rw [marked, hnat]
        simpa using hset
      rcases h _ hmark with hold | hnew
      · rw [marked, hnat, hi.2] at hold
        cases hold
      · exact Or.inr (Finset.mem_image.mpr ⟨_, hnew, hnat⟩)
  calc freeCount fs ≤ (freeSet s ∪ news.image UInt32.toNat).card :=
        Finset.card_le_card hsub
    _ ≤ freeCount s + (news.image UInt32.toNat).card := Finset.card_union_le _ _
    _ ≤ freeCount s + news.card :=
        Nat.add_le_add_left Finset.card_image_le _

theorem freeCount_setBlock (hb : b ≠ bitmapBlock) (buf : Block) :
    freeCount { s with device := s.device.setBlock b buf } = freeCount s := by
  simp only [freeCount, freeSet, Disk.block_setBlock_ne _ _ hb.symm]

theorem Grown.setBlock (h : Grown k fs s) (hb : ¬ Taken fs.device b) (buf : Block) :
    Grown k fs { s with device := s.device.setBlock b buf } where
  extends_ := h.extends_.setBlock hb buf
  geometry := ⟨h.geometry.firstDataBlock, h.geometry.totalBlocks⟩
  count := by
    rw [freeCount_setBlock (ne_bitmapBlock_of_not_taken hb)]
    exact h.count

theorem freeCount_eq_zero (hh : Healthy fs) {e : Failure}
    (h : allocDataBlock.run fs = (.error e, s)) : freeCount fs = 0 := by
  rw [freeCount, Finset.card_eq_zero, Finset.eq_empty_iff_forall_notMem]
  intro i hi
  simp only [freeSet, Finset.mem_filter, Finset.mem_Ico] at hi
  have hstart : fs.sb.firstDataBlock.toNat ≤ i := by
    rw [hh.first]
    exact hi.1.1
  cases hfind : bitmapFindClear (fs.device.block bitmapBlock) fs.sb.firstDataBlock.toNat with
  | none =>
    have hset := bitmapFindClear_none hfind hstart (by omega)
    rw [hi.2] at hset
    cases hset
  | some j =>
    have hj := bitmapFindClear_le hfind hstart hi.2
    have htotal := (allocDataBlock_error hh h).2 j hfind
    omega

theorem allocDataBlock_grown (hI : I fs) (hh : Healthy fs) : Spec (· = fs) allocDataBlock
      (fun b s => Grown 1 fs s ∧ I s ∧ ¬ Taken fs.device b ∧ InUse s.device b)
      (fun _ s => Grown 0 fs s ∧ I s ∧ freeCount fs = 0) := by
  constructor
  · rintro _ b s rfl h
    obtain ⟨halloc, hgeo⟩ := allocDataBlock_spec hh.reserved h
    have hlow : ¬ b.toNat < 5 := fun hlt => halloc.fresh (Or.inl hlt)
    refine ⟨⟨halloc.extends_, hgeo, ?_⟩, Steady.allocated hI hh h, halloc.fresh, by omega,
      halloc.marked⟩
    have hle := freeCount_le {b} hgeo fun c hc =>
      (halloc.only c hc).imp_right Finset.mem_singleton.mpr
    rwa [Finset.card_singleton] at hle
  · rintro _ e s rfl h
    rw [(allocDataBlock_error hh h).1]
    exact ⟨Grown.refl _, hI, freeCount_eq_zero hh h⟩

theorem orAlloc_grown {recorded : UInt32} (hI : I fs) (hh : Healthy fs)
    (hrec : recorded ≠ 0 → InUse fs.device recorded) :
    Spec (· = fs) (orAlloc recorded) (fun b s => Grown 1 fs s ∧ I s ∧ InUse s.device b ∧
        ∀ w, (s.device.block b).word w = fs.device.wordOf recorded w)
      (fun _ s => Grown 0 fs s ∧ I s ∧ freeCount fs = 0) := by
  have hgrown : Spec (· = fs) (orAlloc recorded)
      (fun b s => Grown 1 fs s ∧ I s ∧ InUse s.device b)
      (fun _ s => Grown 0 fs s ∧ I s ∧ freeCount fs = 0) := by
    refine Spec.ite (fun _ => ?_) fun hne => Spec.pure ?_
    · exact (allocDataBlock_grown hI hh).consequence (fun _ h => h)
        (fun _ _ h => ⟨h.1, h.2.1, h.2.2.2⟩) (fun _ _ h => h)
    · rintro s rfl
      exact ⟨(Grown.refl s).mono (by omega), hI, hrec hne⟩
  refine ⟨fun s b s' hs h => ?_, hgrown.error⟩
  obtain ⟨hg, hIs, huse⟩ := hgrown.ok s b s' hs h
  subst hs
  exact ⟨hg, hIs, huse, (orAlloc_spec hh.reserved h).1.words⟩

theorem spec_readInUse (hh : Healthy fs) (hb : InUse fs.device b) :
    Spec (· = fs) (readBlock b) (fun buf s => s = fs ∧ buf = fs.device.block b)
      (fun _ _ => False) :=
  Spec.of_run_ok (readBlock_run_ok (hh.inRange_of_inUse hb)) ⟨rfl, rfl⟩

theorem setSingle_grown {idx : Nat} {entry : UInt32 × UInt32} (hI : I fs) (hh : Healthy fs)
    (hx : OwnTree fs x) :
    Spec (· = fs) (setSingle x idx entry) (fun _ s => freeCount fs ≤ freeCount s + 2 ∧ I s)
      (fun _ s => Grown 2 fs s ∧ I s ∧ freeCount fs < 2) := by
  refine (orAlloc_grown hI hh (hx.inUse_refAt (s := .indirect) rfl)).andThen
    (fun _ _ h => ⟨h.1.mono (by omega), h.2.1, by omega⟩) fun c => ?_
  refine Spec.pointwise fun s ⟨hgrown, hIs, hc, _⟩ => ?_
  have hs := hgrown.healthy hh
  refine (spec_readInUse hs hc).andThen (fun _ _ h => h.elim) fun buf => ?_
  refine Spec.pre (fun _ h => h.1) ?_
  refine (spec_writeBlock_run (hs.inRange_of_inUse hc) _).andThen
    (fun _ _ h => h.elim) fun _ => Spec.pure ?_
  rintro s' rfl
  rw [freeCount_setBlock hc.ne_bitmapBlock]
  exact ⟨Nat.le_trans hgrown.count (by omega), Steady.setInUse _ hIs hc⟩

theorem setDouble_grown {idx : Nat} {entry : UInt32 × UInt32} (hI : I fs) (hh : Healthy fs)
    (hx : OwnTree fs x) :
    Spec (· = fs) (setDouble x idx entry) (fun _ s => freeCount fs ≤ freeCount s + 2 ∧ I s)
      (fun _ s => Grown 2 fs s ∧ I s ∧ freeCount fs < 2) := by
  refine (orAlloc_grown hI hh (hx.inUse_refAt (s := .double) rfl)).andThen
    (fun _ _ h => ⟨h.1.mono (by omega), h.2.1, by omega⟩) fun c => ?_
  refine Spec.pointwise fun s ⟨hgrown, hIs, hc, hwords⟩ => ?_
  have hs := hgrown.healthy hh
  refine (spec_readInUse hs hc).andThen (fun _ _ h => h.elim) fun buf => ?_
  refine Spec.assume fun hbuf => ?_
  subst hbuf
  -- the level-one word is a reference of the file, or zero
  have hlevel : (ptr (s.device.block c) (idx / 512)).1 ≠ 0 →
      InUse s.device (ptr (s.device.block c) (idx / 512)).1 := by
    intro hne
    have hword : (ptr (s.device.block c) (idx / 512)).1 =
        refAt fs.device x (.level1 (2 * (idx / 512))) := hwords _
    rw [hword] at hne ⊢
    exact hgrown.inUse (hx.inUse_refAt (wordLayout.level1 _ _) hne)
  refine (orAlloc_grown hIs hs hlevel).andThen (fun _ _ h => ?_) fun q => ?_
  · have hcount := hgrown.count
    exact ⟨(hgrown.trans h.1).mono (by omega), h.2.1, by omega⟩
  refine Spec.pointwise fun s1 ⟨hgrown1, hI1, hq, _⟩ => ?_
  have hs1 := hgrown1.healthy hs
  have hc1 := hgrown1.inUse hc
  refine (spec_readInUse hs1 hq).andThen (fun _ _ h => h.elim) fun buf2 => ?_
  refine Spec.pre (fun _ h => h.1) ?_
  refine (spec_writeBlock_run (hs1.inRange_of_inUse hq) _).andThen (fun _ _ h => h.elim) fun _ => ?_
  refine Spec.pointwise fun s2 hs2 => ?_
  have hI2 : I s2 := hs2 ▸ Steady.setInUse _ hI1 hq
  have hrange : s2.device.InRange c := hs2 ▸ hs1.inRange_of_inUse hc1
  refine (spec_writeBlock_run hrange _).andThen (fun _ _ h => h.elim) fun _ => Spec.pure ?_
  rintro s3 rfl
  refine ⟨?_, Steady.setBlock _ hI2 hc.ne_bitmapBlock hc.ne_inodeTableBlock⟩
  rw [freeCount_setBlock hc.ne_bitmapBlock, hs2, freeCount_setBlock hq.ne_bitmapBlock]
  exact (hgrown.trans hgrown1).count

theorem inodeSetBlock_grown {new sum : UInt32} (hI : I fs) (hh : Healthy fs)
    (hx : OwnTree fs x) (hl : l < maxBlocks) :
    Spec (· = fs) (inodeSetBlock x l new sum) (fun _ s => freeCount fs ≤ freeCount s + 2 ∧ I s)
      (fun _ s => Grown 2 fs s ∧ I s ∧ freeCount fs < 2) := by
  unfold inodeSetBlock
  by_cases hdirect : l < 10
  · rw [dif_pos hdirect]
    refine Spec.pure ?_
    rintro s rfl
    exact ⟨by omega, hI⟩
  · rw [dif_neg hdirect]
    refine Spec.ite (fun _ => setSingle_grown hI hh hx) fun hsingle => ?_
    refine Spec.ite (fun _ => setDouble_grown hI hh hx) fun hdouble => ?_
    rw [maxBlocks] at hl
    omega

theorem orAlloc_eq {recorded : UInt32} (hne : recorded ≠ 0)
    (h : (orAlloc recorded).run fs = (.ok b, s)) : b = recorded := by
  rw [orAlloc, if_neg hne] at h
  rw [Fallible.run_pure_eq_ok_iff] at h
  exact h.1.symm

/-- Binding a logical block that the stored inode `x0` does not name directly
keeps everything that it names. -/
theorem inodeSetBlock_covers {new sum : UInt32}
    (h : (inodeSetBlock x l new sum).run fs = (.ok x', s)) (hx : x.Covers x0)
    (hdirect : ∀ i : Fin 10, l = i → x0.blocks i = 0) : x'.Covers x0 := by
  unfold inodeSetBlock at h
  split_ifs at h with hl hsingle hdouble
  · obtain ⟨rfl, -⟩ := Fallible.run_pure_eq_ok_iff.mp h
    refine ⟨hx.mode, fun i hi => ?_, hx.indirect, hx.double⟩
    have hne : i ≠ ⟨l, hl⟩ := fun heq => hi (hdirect i (by rw [heq]))
    exact (Function.update_of_ne hne _ _).trans (hx.blocks i hi)
  · obtain ⟨c, fs1, halloc, -, -, rfl⟩ := setSingle_ok h
    refine ⟨hx.mode, hx.blocks, fun hne => ?_, hx.double⟩
    have heq := hx.indirect hne
    exact (orAlloc_eq (heq ▸ hne) halloc).trans heq
  · obtain ⟨c, fs1, q, fs2, halloc, -, -, -, buf2, buf, -, -, -, rfl⟩ :=
      setDouble_ok h
    refine ⟨hx.mode, hx.blocks, hx.indirect, fun hne => ?_⟩
    have heq := hx.double hne
    exact (orAlloc_eq (heq ▸ hne) halloc).trans heq
  · simp [err] at h

/-- Why a round may fail: there may be too few blocks, or the logical block
cannot be read. -/
def Cramped (fs : ZiqaFs) (x : Inode) (l : Nat) : Prop :=
  freeCount fs < 3 ∨ ∀ r, contents fs.device x l ≠ .ok r

theorem inodeGetBlock_outcome : Spec (· = fs) (inodeGetBlock x l)
      (fun p s => s = fs ∧ blockMap fs.device x l = .ok p)
      (fun e s => s = fs ∧ blockMap fs.device x l = .error e) := by
  constructor
  · rintro _ p s rfl h
    rw [inodeGetBlock_run, Prod.mk.injEq] at h
    exact ⟨h.2.symm, h.1⟩
  · rintro _ p s rfl h
    rw [inodeGetBlock_run, Prod.mk.injEq] at h
    exact ⟨h.2.symm, h.1⟩

theorem oldContents_spec {keep : Bool} (hh : Healthy fs) (hb : b ≠ 0 → InUse fs.device b) :
    Spec (· = fs) (oldContents b keep) (fun _ s => s = fs) (fun _ _ => False) := by
  refine Spec.ite (fun hne => ?_) fun _ => Spec.pure fun _ h => h
  exact (spec_readInUse hh (hb hne.1)).consequence (fun _ h => h)
    (fun _ _ h => h.1) (fun _ _ h => h)

theorem writeRound_error (hI : I fs) (hh : Healthy fs) (hx : OwnTree fs x)
    (hmode : x.mode ≠ inodeModeDir) :
    Spec (· = fs) (writeRound x pos rest) (fun _ => I)
      (fun _ s => Grown 3 fs s ∧ I s ∧ Cramped fs x (logicalOf pos)) := by
  refine inodeGetBlock_outcome.andThen (fun e s h => ?_) fun p => ?_
  · obtain ⟨rfl, hmap⟩ := h
    refine ⟨(Grown.refl s).mono (by omega), hI, Or.inr fun r hr => ?_⟩
    simp [contents, hmap] at hr
  obtain ⟨old, sum⟩ := p
  refine Spec.assume fun hmap => ?_
  obtain ⟨hold, hl⟩ := blockMap_eq_ok hmap
  have hdata := wordLayout.dataSlot x.mode (logicalOf pos)
  have hinUse : old ≠ 0 → InUse fs.device old := by
    intro hne
    change old = _ at hold
    rw [hold] at hne ⊢
    exact hx.inUse_refAt hdata hne
  refine (oldContents_spec hh hinUse).andThen (fun _ _ h => h.elim) fun buf => ?_
  refine (allocDataBlock_grown hI hh).andThen (fun _ s h => ?_) fun new => ?_
  · exact ⟨h.1.mono (by omega), h.2.1, Or.inl (by omega)⟩
  refine Spec.pointwise fun s1 h1 => ?_
  obtain ⟨hgrown, hI1, hfresh, hnew⟩ := h1
  have hs1 := hgrown.healthy hh
  refine (spec_writeBlock_run (hs1.inRange_of_inUse hnew) _).andThen
    (fun _ _ h => h.elim) fun _ => ?_
  refine Spec.pointwise fun s2 hs2 => ?_
  have hI2 : I s2 := hs2 ▸ Steady.setInUse _ hI1 hnew
  have hgrown2 : Grown 1 fs s2 := hs2 ▸ hgrown.setBlock hfresh _
  have hx2 := (hgrown2.kept hx).ownTree
  have hh2 := hgrown2.healthy hh
  have hmap2 : blockMap s2.device x (logicalOf pos) = .ok (old, sum) := by
    rw [(hgrown2.extends_.sameTree hx).blockMap_eq, hmap]
  have hset : Spec (· = s2) (inodeSetBlock x (logicalOf pos) new 0)
      (fun x' s => (Relinked wordLayout s2.sb.totalBlocks.toNat s2.device s.device
        x x' (logicalOf pos) new ∧ SameGeometry s2 s) ∧ I s)
      (fun _ s => Grown 2 s2 s ∧ I s ∧ freeCount s2 < 2) := by
    have hgrow : Spec (· = s2) (inodeSetBlock x (logicalOf pos) new 0) _ _ :=
      inodeSetBlock_grown hI2 hh2 hx2 hl
    refine ⟨?_, hgrow.error⟩
    rintro _ x' s rfl h
    exact ⟨inodeSetBlock_spec hh2.reserved hx2 hmode hmap2 h, (hgrow.ok _ _ _ rfl h).2⟩
  refine hset.andThen (fun _ s h => ?_) fun x' => ?_
  · have hcount := hgrown2.count
    exact ⟨hgrown2.trans h.1, h.2.1, Or.inl (by omega)⟩
  refine Spec.pointwise fun s3 h3 => ?_
  obtain ⟨⟨hrelinked, hgeo⟩, hI3⟩ := h3
  refine Spec.ite (fun hfree => ?_) fun _ => Spec.pure fun _ h => h ▸ hI3
  have hold3 : InUse s3.device old :=
    ⟨(hinUse hfree.1).1, hrelinked.marks _ (hgrown2.inUse (hinUse hfree.1)).2⟩
  have hh3 := hh2.step hgeo hrelinked.sectors hrelinked.upper
  have hrun := freeDataBlock_run hh3 (hh3.freeable hold3)
  have hholds := Steady.free hI3 hh3 hold3
  rw [hrun] at hholds
  exact (Spec.of_run_ok (Q := fun _ => I) hrun hholds).bind fun _ => Spec.pure fun _ h => h

/-- What a successful round at position `pos` has done. -/
structure RoundDone (fs s : ZiqaFs) (x x' : Inode) (pos : Nat) : Prop where
  kept : Kept fs s x x'
  count : freeCount fs ≤ freeCount s + 3
  covers : ∀ x0, x.Covers x0 → (∀ i : Fin 10, logicalOf pos = i → x0.blocks i = 0) → x'.Covers x0
  readable : ∀ k r, contents fs.device x k = .ok r → ∃ r', contents s.device x' k = .ok r'

theorem writeRound_done (hh : Healthy fs) (hx : OwnTree fs x) (hmode : x.mode ≠ inodeModeDir)
    (h : (writeRound x pos rest).run fs = (.ok x', s)) :
    RoundDone fs s x x' pos := by
  obtain ⟨hrew, hgeo, -, buf, image, -, -, -, hcontents⟩ :=
    writeRound_spec hh.reserved hx hmode h
  obtain ⟨old, sum, buf, new, fs1, fs3, image, hmap, -, -, -, halloc, -, hset,
    hreleased, hgeo3⟩ := writeRound_ok h
  refine ⟨⟨hrew, hgeo⟩, ?_, fun x0 => inodeSetBlock_covers hset, fun k r hr => ?_⟩
  · obtain ⟨hgrown, -, hfresh, -⟩ :=
      (allocDataBlock_grown (I := fun _ => True) trivial hh).ok _ _ _ rfl halloc
    have hgrown2 := hgrown.setBlock hfresh image
    obtain ⟨hcount2, -⟩ := (inodeSetBlock_grown (I := fun _ => True) trivial
      (hgrown2.healthy hh) (hgrown2.kept hx).ownTree (blockMap_eq_ok hmap).2).ok _ _ _ rfl hset
    have hcount1 := hgrown2.count
    have hcount3 := freeCount_le ∅ hgeo3 fun c hc =>
      Or.inl (hreleased.upper c hc)
    rw [Finset.card_empty] at hcount3
    omega
  · rw [hcontents]
    by_cases hk : k = logicalOf pos
    · exact ⟨_, if_pos hk⟩
    · exact ⟨r, by rw [if_neg hk, hr]⟩

theorem writeRound_safe (hI : I fs) (hh : Healthy fs) (hx : OwnTree fs x)
    (hmode : x.mode ≠ inodeModeDir) :
    Spec (· = fs) (writeRound x pos rest) (fun x' s => RoundDone fs s x x' pos ∧ I s)
      (fun _ s => Grown 3 fs s ∧ I s ∧ Cramped fs x (logicalOf pos)) := by
  have hround : Spec (· = fs) (writeRound x pos rest) _ _ := writeRound_error hI hh hx hmode
  refine ⟨?_, hround.error⟩
  rintro _ x' s rfl h
  exact ⟨writeRound_done hh hx hmode h, hround.ok _ _ _ rfl h⟩

/-- Before its last block, the range meets no direct block that the stored inode
names. -/
def NoOverwrite (x0 : Inode) (pos len : Nat) : Prop :=
  ∀ p, pos ≤ p → p / 4096 < (pos + len - 1) / 4096 → ∀ i : Fin 10, logicalOf p = i → x0.blocks i = 0

/-- Every block of the range can be read, and there are three free blocks for
each: one for the data and two for pointers. -/
def Roomy (fs : ZiqaFs) (x : Inode) (pos len : Nat) : Prop :=
  3 * blocksFor (pos % 4096 + len) ≤ freeCount fs ∧
    ∀ p, pos ≤ p → p < pos + len → ∃ r, contents fs.device x (logicalOf p) = .ok r

theorem Roomy.not_cramped {len : Nat} (h : Roomy fs x pos len) (hlen : 0 < len) :
    ¬ Cramped fs x (logicalOf pos) := by
  rintro (hcount | hread)
  · have hblocks : 1 ≤ blocksFor (pos % 4096 + len) := by
      unfold blocksFor
      omega
    have hroom := h.1
    omega
  · obtain ⟨r, hr⟩ := h.2 pos (Nat.le_refl _) (by omega)
    exact hread r hr

theorem Roomy.next {len chunk : Nat} (h : Roomy fs x pos len)
    (hdone : RoundDone fs s x x' pos) (hchunk : chunk = min (4096 - pos % 4096) len)
    (hlen : 0 < len - chunk) : Roomy s x' (pos + chunk) (len - chunk) := by
  refine ⟨?_, fun p hp hp' => ?_⟩
  · have hroom := h.1
    have hcount := hdone.count
    unfold blocksFor at hroom ⊢
    omega
  · obtain ⟨r, hr⟩ := h.2 p (by omega) (by omega)
    exact hdone.readable _ r hr

theorem writeLoop_nil (fuel : Nat) (x : Inode) (pos : Nat) : writeLoop fuel x pos [] = pure x := by
  cases fuel <;> rfl

/-- The loop of `write_file` from a state in which the file `x0` has become `x`.
If it fails, the file `x0` as stored is still in order. -/
theorem writeLoop_safe {fuel : Nat} (hh : Healthy fs) (hmode : x0.mode ≠ inodeModeDir)
    (hkept : KeptIn I fs s x0 x)
    (hsafe : x.Covers x0 ∧ NoOverwrite x0 pos rest.length ∨ Roomy s x pos rest.length) :
    Spec (· = s) (writeLoop fuel x pos rest) (fun x' s' => KeptIn I fs s' x0 x')
      (fun _ s' => KeptIn I fs s' x0 x0) := by
  induction fuel generalizing s x pos rest with
  | zero =>
    refine Spec.pure ?_
    rintro s' rfl
    exact hkept
  | succ fuel ih =>
    refine Spec.ite (fun _ => Spec.pure ?_) fun hrest => ?_
    · rintro s' rfl
      exact hkept
    have hlen : 0 < rest.length := List.length_pos_iff.mpr hrest
    refine (writeRound_safe hkept.holds (hkept.healthy hh) hkept.ownTree
      (hkept.rewrites.mode ▸ hmode)).andThen (fun _ s' h => ?_) fun x' => ?_
    · rcases hsafe with ⟨hcovers, -⟩ | hroomy
      · exact (hkept.trans ⟨h.1.kept hkept.ownTree, h.2.1⟩).uncommitted hcovers
      · exact absurd h.2.2 (hroomy.not_cramped hlen)
    refine Spec.pointwise fun s' ⟨hdone, hI⟩ => ?_
    have hkept' := hkept.trans ⟨hdone.kept, hI⟩
    generalize hchunk : min (4096 - pos % 4096) rest.length = chunk
    dsimp only
    by_cases hdrop : rest.drop chunk = []
    · rw [hdrop, writeLoop_nil]
      refine Spec.pure ?_
      rintro _ rfl
      exact hkept'
    have hleft : 0 < (rest.drop chunk).length := List.length_pos_iff.mpr hdrop
    refine ih hkept' ?_
    rw [List.length_drop] at hleft ⊢
    rcases hsafe with ⟨hcovers, hno⟩ | hroomy
    · refine Or.inl ⟨hdone.covers x0 hcovers fun i hi => ?_, fun p hp hlast => ?_⟩
      · exact hno pos (Nat.le_refl _) (by omega) i hi
      · exact hno p (by omega) (by omega)
    · exact Or.inr (hroomy.next hdone hchunk.symm hleft)

/-- `write_file` keeps a volume in order when it overwrites no directly named
block before its last one, or when there is room for all of it. -/
def WriteSafe (fs : ZiqaFs) (id : UInt32) (offset len : Nat) : Prop :=
  ∀ x, liveInode fs.device id = some x → NoOverwrite x offset len ∨ Roomy fs x offset len

theorem writeFile_safe {now id : UInt32} {offset : Nat} {buf : List UInt8}
    (hs : SoundIn I fs) (hsafe : WriteSafe fs id offset buf.length) :
    Spec (· = fs) (writeFile now id offset buf) (fun _ => SoundIn I) (fun _ => SoundIn I) := by
  refine readInode_spec.andThen (fun _ _ h => h ▸ hs) fun x => ?_
  refine Spec.pointwise fun s ⟨hfs, hx⟩ => ?_
  subst hfs
  refine Spec.ite (fun _ => Spec.fail fun _ h => h ▸ hs) fun hmode => ?_
  have hkept := KeptIn.refl (hs.ownTree hx) hs.holds
  refine (writeLoop_safe hs.healthy hmode hkept ((hsafe x hx).imp_left fun hno =>
    ⟨Inode.Covers.refl x, hno⟩)).andThen (fun _ _ h => hs.of_kept hx h) fun x' => ?_
  refine Spec.pointwise fun s1 hkept1 => ?_
  have hrefs : ∀ size, ({ x' with size := size, mtime := now } : Inode).SameRefs x' :=
    fun _ => ⟨rfl, rfl, rfl, rfl⟩
  refine (writeInode_spec hs.toSound hx hkept1 (hrefs _)).andThen (fun _ _ h => h.elim) fun _ => ?_
  refine Spec.pre (fun _ h => h.1) ?_
  exact flushSuperblock_spec.bind fun _ => Spec.pure fun _ h => h

end ZiqaKernel
