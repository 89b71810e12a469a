/-
Block ownership across the calls of the file system, errors included.
-/
import ZiqaKernel.ZiqaFsHealth

namespace ZiqaKernel

open Fallible Spec Disk Function Image

variable {fs fs' fs'' : ZiqaFs} {x x' x'' y : Inode} {id b p : UInt32} {w l : Nat}

theorem InUse.ne_inodeTableBlock {d : Disk} (h : InUse d b) : b ≠ inodeTableBlock := by
  rintro rfl
  exact absurd h.1 (by decide)

/-- A property of volumes that the single steps of the calls keep, on volumes as
`format` leaves them. -/
class Steady (I : ZiqaFs → Prop) : Prop where
  setBlock {s : ZiqaFs} {b : UInt32} (buf : Block) : I s → b ≠ bitmapBlock →
    b ≠ inodeTableBlock → I { s with device := s.device.setBlock b buf }
  alloc {s : ZiqaFs} : I s → Healthy s → I (allocDataBlock.run s).2
  free {s : ZiqaFs} {b : UInt32} : I s → Healthy s → InUse s.device b →
    I ((freeDataBlock b).run s).2
  store {s : ZiqaFs} {id : UInt32} (y : Inode) : I s →
    (liveInode s.device id).isSome = true → I ((writeInode id y).run s).2
  release {s : ZiqaFs} {id : UInt32} : I s → (liveInode s.device id).isSome = true →
    I ((freeInode id).run s).2
  clean {s : ZiqaFs} : I s → I { s with sb := { s.sb with flags := 0 } }

instance : Steady fun _ => True :=
  ⟨fun _ _ _ _ => trivial, fun _ _ => trivial, fun _ _ _ => trivial, fun _ _ _ => trivial,
    fun _ _ => trivial, fun _ => trivial⟩

variable {I : ZiqaFs → Prop}

/-- `Kept`, with the property `I` afterwards. -/
structure KeptIn (I : ZiqaFs → Prop) (fs fs' : ZiqaFs) (x x' : Inode) : Prop extends
    Kept fs fs' x x' where
  holds : I fs'

theorem KeptIn.refl (hx : OwnTree fs x) (h : I fs) : KeptIn I fs fs x x :=
  ⟨Kept.refl hx, h⟩

theorem KeptIn.of_eq (hI : I fs) (hx : OwnTree fs x) (h : fs' = fs) : KeptIn I fs fs' x x := by
  subst h
  exact .refl hx hI

theorem KeptIn.trans (h : KeptIn I fs fs' x x') (h' : KeptIn I fs' fs'' x' x'') :
    KeptIn I fs fs'' x x'' :=
  ⟨h.toKept.trans h'.toKept, h'.holds⟩

theorem KeptIn.uncommitted (h : KeptIn I fs fs' x x') (hcovers : x'.Covers x) :
    KeptIn I fs fs' x x :=
  ⟨h.toKept.uncommitted hcovers, h.holds⟩

theorem KeptIn.then_write {s : ZiqaFs} {buf : Block} (hkept : KeptIn I fs s x x)
    (h : Spec (· = s) (writeBlock b buf) (fun _ s' => KeptIn I s s' x x)
      (fun _ s' => KeptIn I s s' x x)) :
    Spec (· = s) (writeBlock b buf) (fun _ s' => KeptIn I fs s' x x)
      (fun _ s' => KeptIn I fs s' x x) :=
  h.consequence (fun _ h => h) (fun _ _ h => hkept.trans h) (fun _ _ h => hkept.trans h)

section

variable {L : Layout} {n : Nat} {d d1 : Disk}

section

variable (halloc : Allocated n d d1 b)
include halloc

theorem Allocated.rewrites (home : Slot)
    (hx : Exclusive (tree L d x) (InUse d)) (hmode : x'.mode = x.mode)
    (hslot : ∀ s, refAt d1 x' s ≠ 0 → refAt d1 x' s = refAt d1 x s ∨
      (s = home ∧ refAt d1 x' s = b)) : Rewrites L n d d1 x x' := by
  have hsame := halloc.extends_.sameTree hx
  apply Rewrites.of_slots hx halloc.extends_.sectors hmode (fun _ => home)
  · intro s hs
    have hs' : L.counts x.mode s = true := by
      by_contra hno
      rw [tree, hmode, if_neg hno] at hs
      exact hs rfl
    rw [tree_of_counts (hmode ▸ hs')] at hs
    rw [tree_of_counts (hmode ▸ hs'), tree_of_counts hs', ← hsame.refAt_eq hs']
    rcases hslot s hs with heq | ⟨rfl, heq⟩
    · exact Or.inl heq
    · rw [heq]
      exact Or.inr ⟨halloc.fresh, halloc.marked, rfl⟩
  · exact halloc.extends_.upper
  · exact halloc.extends_.marked
  · intro c hne htaken _
    exact halloc.extends_.keeps c hne htaken

theorem Allocated.wordOf_eq (w : Nat) : d1.wordOf b w = 0 := by
  unfold wordOf
  rw [halloc.zero, word_zero, ite_self]

theorem Allocated.rewrites_direct (i : Fin 10)
    (hx : Exclusive (tree L d x) (InUse d)) :
    Rewrites L n d d1 x { x with blocks := update x.blocks i b } := by
  refine halloc.rewrites (.direct i) hx rfl fun s _ => ?_
  cases s with
  | direct j =>
    by_cases hj : j = i
    · subst hj
      exact Or.inr ⟨rfl, update_self _ _ _⟩
    · exact Or.inl (update_of_ne hj _ _)
  | indirect => exact Or.inl rfl
  | double => exact Or.inl rfl
  | single w => exact Or.inl rfl
  | level1 w => exact Or.inl rfl
  | level2 w v => exact Or.inl rfl

theorem Allocated.rewrites_indirect
    (hx : Exclusive (tree L d x) (InUse d)) :
    Rewrites L n d d1 x { x with indirect := b } := by
  refine halloc.rewrites .indirect hx rfl fun s hs => ?_
  cases s with
  | direct j => exact Or.inl rfl
  | indirect => exact Or.inr ⟨rfl, rfl⟩
  | double => exact Or.inl rfl
  | single w => exact absurd (halloc.wordOf_eq w) hs
  | level1 w => exact Or.inl rfl
  | level2 w v => exact Or.inl rfl

theorem Allocated.rewrites_double
    (hx : Exclusive (tree L d x) (InUse d)) :
    Rewrites L n d d1 x { x with doubleIndirect := b } := by
  refine halloc.rewrites .double hx rfl fun s hs => ?_
  cases s with
  | direct j => exact Or.inl rfl
  | indirect => exact Or.inl rfl
  | double => exact Or.inr ⟨rfl, rfl⟩
  | single w => exact Or.inl rfl
  | level1 w => exact absurd (halloc.wordOf_eq w) hs
  | level2 w v =>
    have hzero : d1.wordOf (d1.wordOf b w) v = 0 := by
      rw [halloc.wordOf_eq w, wordOf_zero]
    exact absurd hzero hs

end

end

section

variable [Steady I]

theorem Steady.setInUse (buf : Block) (h : I fs) (hb : InUse fs.device b) :
    I { fs with device := fs.device.setBlock b buf } :=
  Steady.setBlock buf h hb.ne_bitmapBlock hb.ne_inodeTableBlock

theorem Steady.allocated {r : Except Failure UInt32} (h : I fs) (hh : Healthy fs)
    (hrun : allocDataBlock.run fs = (r, fs')) : I fs' := by
  have hstep := Steady.alloc h hh
  rwa [hrun] at hstep

/-- A field of the inode that `or_alloc` fills: the block recorded there, or a
fresh one. -/
theorem spec_orAlloc {recorded : UInt32} (set : UInt32 → Inode)
    (hI : I fs) (hh : Healthy fs) (hx : OwnTree fs x) (hself : set recorded = x)
    (hcovers : ∀ c, recorded = 0 → (set c).Covers x)
    (hrew : ∀ {n d1 c}, Allocated n fs.device d1 c → Rewrites wordLayout n fs.device d1 x (set c)) :
    Spec (· = fs) (orAlloc recorded)
      (fun c s => KeptIn I fs s x (set c) ∧ (set c).Covers x ∧ c ≠ 0)
      (fun _ s => KeptIn I fs s x x) := by
  refine ⟨?_, ?_⟩
  · rintro _ c s rfl h
    unfold orAlloc at h
    split_ifs at h with hrec
    · obtain ⟨halloc, hgeo⟩ := allocDataBlock_spec hh.reserved h
      refine ⟨⟨⟨hrew halloc, hgeo⟩, Steady.allocated hI hh h⟩, hcovers c hrec, ?_⟩
      rintro rfl
      exact halloc.fresh (Or.inl (by decide))
    · obtain ⟨rfl, rfl⟩ := run_pure_eq_ok_iff.mp h
      rw [hself]
      exact ⟨.refl hx hI, Inode.Covers.refl x, hrec⟩
  · rintro _ e s rfl h
    rw [orAlloc_error hh h]
    exact .refl hx hI

theorem spec_orAlloc_indirect (hI : I fs) (hh : Healthy fs) (hx : OwnTree fs x) :
    Spec (· = fs) (orAlloc x.indirect) (fun c s => KeptIn I fs s x { x with indirect := c } ∧
        ({ x with indirect := c } : Inode).Covers x ∧ c ≠ 0)
      (fun _ s => KeptIn I fs s x x) :=
  spec_orAlloc (fun c => { x with indirect := c }) hI hh hx rfl
    (fun _ hzero => ⟨rfl, fun _ _ => rfl, fun hne => absurd hzero hne, fun _ => rfl⟩)
    (fun halloc => halloc.rewrites_indirect hx)

theorem spec_orAlloc_double (hI : I fs) (hh : Healthy fs) (hx : OwnTree fs x) :
    Spec (· = fs) (orAlloc x.doubleIndirect)
      (fun c s => KeptIn I fs s x { x with doubleIndirect := c } ∧
        ({ x with doubleIndirect := c } : Inode).Covers x ∧ c ≠ 0)
      (fun _ s => KeptIn I fs s x x) :=
  spec_orAlloc (fun c => { x with doubleIndirect := c }) hI hh hx rfl
    (fun _ hzero => ⟨rfl, fun _ _ => rfl, fun _ => rfl, fun hne => absurd hzero hne⟩)
    (fun halloc => halloc.rewrites_double hx)

theorem allocWord_run {buf : Block} (h : (allocWord p buf w).run fs = (.ok b, fs')) :
    (buf.word w ≠ 0 ∧ b = buf.word w ∧ fs' = fs) ∨
      (buf.word w = 0 ∧ ∃ fs1, allocDataBlock.run fs = (.ok b, fs1) ∧
        fs' = { fs1 with device := fs1.device.setBlock p (buf.setWord w b) }) := by
  unfold allocWord at h
  split_ifs at h with hzero
  · rw [run_bind_eq_ok_iff] at h
    obtain ⟨fresh, fs1, hrun, h⟩ := h
    rw [run_bind_eq_ok_iff] at h
    obtain ⟨u, fs2, hwrite, h⟩ := h
    obtain ⟨-, rfl⟩ := writeBlock_eq_ok_iff.mp hwrite
    obtain ⟨rfl, rfl⟩ := run_pure_eq_ok_iff.mp h
    exact Or.inr ⟨hzero, fs1, hrun, rfl⟩
  · rw [run_pure_eq_ok_iff] at h
    exact Or.inl ⟨hzero, h.1.symm, h.2.symm⟩

theorem allocWord_ok (hI : I fs) (hh : Healthy fs) (hx : OwnTree fs x) (hw : w < 1024)
    (hp : InUse fs.device p)
    (hrew : ∀ {n d1 c}, Patched n fs.device d1 p c w →
      Rewrites wordLayout n fs.device (d1.setBlock p c) x x)
    (h : (allocWord p (fs.device.block p) w).run fs = (.ok b, fs')) :
    KeptIn I fs fs' x x ∧ b ≠ 0 ∧ (fs'.device.block p).word w = b ∧
      ∀ q, InUse fs.device q → q ≠ p → fs'.device.block q = fs.device.block q := by
  rcases allocWord_run h with ⟨hne, rfl, rfl⟩ | ⟨-, fs1, hrun, rfl⟩
  · exact ⟨.refl hx hI, hne, rfl, fun _ _ _ => rfl⟩
  · obtain ⟨halloc, hgeo⟩ := allocDataBlock_spec hh.reserved hrun
    have hself : ((fs.device.block p).setWord w b).word w = b :=
      word_setWord_self _ _ (by omega)
    have hpatch : Patched fs.sb.totalBlocks.toNat fs.device fs1.device p
        ((fs.device.block p).setWord w b) w := by
      refine ⟨halloc.extends_, fun v _ => ?_⟩
      by_cases hv : v = w
      · rw [hv, hself]
        exact Or.inr ⟨rfl, halloc.fresh, halloc.marked, halloc.zero⟩
      · exact Or.inl (word_setWord_ne _ _ hv)
    refine ⟨⟨⟨hrew hpatch, hgeo.firstDataBlock, hgeo.totalBlocks⟩, ?_⟩, ?_, ?_,
      fun q hq hne => hpatch.block_ne hq hne⟩
    · exact Steady.setBlock _ (Steady.allocated hI hh hrun) hp.ne_bitmapBlock
        hp.ne_inodeTableBlock
    · rintro rfl
      exact halloc.fresh (Or.inl (by decide))
    · rw [block_setBlock_self, hself]

/-- Word `w` of the pointer block `p` names `b` now, as it did before or because
`b` has been allocated for it. -/
structure WordFilled (d d' : Disk) (p : UInt32) (w : Nat) (b : UInt32) : Prop where
  others : ∀ q, InUse d q → q ≠ p → d'.block q = d.block q
  words : ∀ v, v ≠ w → (d'.block p).word v = (d.block p).word v
  filled : (d'.block p).word w = b
  ne_zero : b ≠ 0
  fresh : (d.block p).word w = b ∨ ((d.block p).word w = 0 ∧ d'.block b = zero)

theorem allocWord_filled (hh : Healthy fs) (hp : InUse fs.device p) (hw : w < 1024)
    (h : (allocWord p (fs.device.block p) w).run fs = (.ok b, fs')) :
    WordFilled fs.device fs'.device p w b := by
  rcases allocWord_run h with ⟨hne, rfl, rfl⟩ | ⟨hzero, fs1, hrun, rfl⟩
  · exact ⟨fun _ _ _ => rfl, fun _ _ => rfl, rfl, hne, Or.inl rfl⟩
  · obtain ⟨halloc, -⟩ := allocDataBlock_spec hh.reserved hrun
    have hne : b ≠ p := by
      rintro rfl
      exact halloc.fresh hp.taken
    refine ⟨fun q hq hqp => ?_, fun v hv => ?_, ?_, ?_, Or.inr ⟨hzero, ?_⟩⟩
    · rw [block_setBlock_ne _ _ hqp, halloc.extends_.keeps q hq.ne_bitmapBlock hq.taken]
    · rw [block_setBlock_self, word_setWord_ne _ _ hv]
    · rw [block_setBlock_self, word_setWord_self _ _ (by omega)]
    · rintro rfl
      exact halloc.fresh (Or.inl (by decide))
    · rw [block_setBlock_ne _ _ hne]
      exact halloc.zero

theorem allocWord_error {buf : Block} {e : Failure} (hh : Healthy fs) (hp : InUse fs.device p)
    (h : (allocWord p buf w).run fs = (.error e, fs')) : fs' = fs := by
  unfold allocWord at h
  split_ifs at h with hzero
  · rcases run_bind_eq_error_iff.mp h with h | ⟨fresh, fs1, hrun, h⟩
    · exact (allocDataBlock_error hh h).1
    · obtain ⟨halloc, -⟩ := allocDataBlock_spec hh.reserved hrun
      have hrange : fs1.device.InRange p :=
        (inRange_congr halloc.extends_.sectors p).mpr (hh.inRange_of_inUse hp)
      rw [run_bind_of_ok (writeBlock_run_ok hrange _)] at h
      simp at h
  · simp at h

/-- The slot that `inode_alloc_block` fills for logical block `l`. -/
def wordSlot (l : Nat) : Slot :=
  if h : l < 10 then .direct ⟨l, h⟩
  else if l - 10 < 1024 then .single (l - 10)
  else .level2 ((l - 10 - 1024) / 1024) ((l - 10 - 1024) % 1024)

theorem isPointer_wordSlot (l : Nat) : (wordSlot l).isPointer = false := by
  unfold wordSlot
  split_ifs <;> rfl

structure DataBlockOf (fs : ZiqaFs) (x : Inode) (b : UInt32) : Prop where
  ne_zero : b ≠ 0
  slot : ∃ s, wordLayout.counts x.mode s = true ∧ s.isPointer = false ∧ refAt fs.device x s = b

theorem DataBlockOf.inUse (hx : OwnTree fs x) (hb : DataBlockOf fs x b) : InUse fs.device b := by
  obtain ⟨hne, t, hcounts, -, rfl⟩ := hb
  exact hx.inUse_refAt hcounts hne

/-- What `inode_alloc_block` hands out: the block named at the slot `t`. -/
structure PlacedAt (fs : ZiqaFs) (x : Inode) (t : Slot) (b : UInt32) : Prop where
  ne_zero : b ≠ 0
  counts : wordLayout.counts x.mode t = true
  slot : refAt fs.device x t = b

theorem PlacedAt.dataBlockOf {t : Slot} (h : PlacedAt fs x t b) (ht : t.isPointer = false) :
    DataBlockOf fs x b :=
  ⟨h.ne_zero, t, h.counts, ht, h.slot⟩

theorem Kept.ownTree (h : Kept fs fs' x x') : OwnTree fs' x' :=
  h.rewrites.exclusive

theorem spec_readBlock {P : ZiqaFs → Prop} :
    Spec P (readBlock b) (fun buf s => P s ∧ buf = s.device.block b) (fun _ => P) := by
  refine ⟨fun s buf s' hs h => ?_, fun s e s' hs h => ?_⟩
  · obtain ⟨-, rfl, rfl⟩ := readBlock_eq_ok_iff.mp h
    exact ⟨hs, rfl⟩
  · rw [readBlock_run, Prod.mk.injEq] at h
    exact h.2 ▸ hs

theorem allocWord_spec (hI : I fs) (hh : Healthy fs) (hx : OwnTree fs x) (hw : w < 1024)
    (hp : InUse fs.device p)
    (hrew : ∀ {n d1 c}, Patched n fs.device d1 p c w →
      Rewrites wordLayout n fs.device (d1.setBlock p c) x x) :
    Spec (· = fs) (allocWord p (fs.device.block p) w)
      (fun b s => KeptIn I fs s x x ∧ b ≠ 0 ∧ (s.device.block p).word w = b ∧
        ∀ q, InUse fs.device q → q ≠ p → s.device.block q = fs.device.block q)
      (fun _ s => KeptIn I fs s x x) := by
  refine ⟨?_, ?_⟩
  · rintro _ b s rfl h
    exact allocWord_ok hI hh hx hw hp hrew h
  · rintro _ e s rfl h
    rw [allocWord_error hh hp h]
    exact .refl hx hI

theorem allocSingle_spec {idx : Nat} (hI : I fs) (hh : Healthy fs) (hx : OwnTree fs x)
    (hidx : idx < 1024) :
    Spec (· = fs) (allocSingle x idx)
      (fun r s => KeptIn I fs s x r.2 ∧ PlacedAt s r.2 (.single idx) r.1)
      (fun _ s => KeptIn I fs s x x) := by
  unfold allocSingle
  refine Spec.bind (spec_orAlloc_indirect hI hh hx) fun c => ?_
  refine Spec.assume fun ⟨hcovers, hc⟩ => ?_
  refine spec_readBlock.andThen (fun _ _ h => h.uncommitted hcovers) fun buf => ?_
  refine pointwise fun s ⟨hkept, hbuf⟩ => ?_
  subst hbuf
  refine (allocWord_spec hkept.holds (hkept.healthy hh) hkept.ownTree hidx
    (hkept.ownTree.inUse_refAt (s := .indirect) rfl hc)
    (fun hpatch => hpatch.rewrites_indirect hkept.ownTree hc)).andThen
      (fun _ _ h => (hkept.trans h).uncommitted hcovers) fun b => ?_
  refine pure fun s' ⟨hkept', hb, hword, _⟩ =>
    ⟨hkept.trans hkept', hb, rfl, ?_⟩
  exact (wordOf_of_ne hc idx).trans hword

theorem Exclusive.refAt_ne {L : Layout} {d : Disk}
    (hx : Exclusive (tree L d x) (InUse d)) {s s' : Slot}
    (hs : L.counts x.mode s = true) (hs' : L.counts x.mode s' = true)
    (hzero : refAt d x s ≠ 0) (hne : s ≠ s') : refAt d x s ≠ refAt d x s' := by
  rw [← tree_of_counts hs, ← tree_of_counts hs']
  exact hx.ne (by rwa [tree_of_counts hs]) hne

theorem counts_dir (hmode : x.mode = inodeModeDir) (s : Slot) :
    wordLayout.counts x.mode s = true := by
  cases s <;> simp [wordLayout, hmode]

theorem allocDouble_spec {idx : Nat} (hI : I fs) (hh : Healthy fs) (hx : OwnTree fs x)
    (hmode : x.mode = inodeModeDir) (hidx : idx < 1024 * 1024) :
    Spec (· = fs) (allocDouble x idx) (fun r s => KeptIn I fs s x r.2 ∧
        PlacedAt s r.2 (.level2 (idx / 1024) (idx % 1024)) r.1)
      (fun _ s => KeptIn I fs s x x) := by
  unfold allocDouble
  refine Spec.bind (spec_orAlloc_double hI hh hx) fun c => ?_
  refine Spec.assume fun ⟨hcovers, hc⟩ => ?_
  refine spec_readBlock.andThen (fun _ _ h => h.uncommitted hcovers) fun buf => ?_
  refine pointwise fun s ⟨hkept, hbuf⟩ => ?_
  subst hbuf
  refine (allocWord_spec hkept.holds (hkept.healthy hh) hkept.ownTree (by omega)
    (hkept.ownTree.inUse_refAt (s := .double) rfl hc)
    (fun hpatch => hpatch.rewrites_double hkept.ownTree hc)).andThen
      (fun _ _ h => (hkept.trans h).uncommitted hcovers) fun q => ?_
  refine spec_readBlock.andThen (fun _ _ h => (hkept.trans h.1).uncommitted hcovers) fun buf2 => ?_
  refine pointwise fun s1 ⟨⟨hkept1, hq, hword, _⟩, hbuf2⟩ => ?_
  subst hbuf2
  have hkept2 := hkept.trans hkept1
  -- the block just read is the one that the double-indirect block names
  have hlevel : refAt s1.device { x with doubleIndirect := c } (.level1 (idx / 1024)) = q :=
    (wordOf_of_ne hc _).trans hword
  subst hlevel
  refine (allocWord_spec hkept2.holds (hkept2.healthy hh) hkept2.ownTree (by omega)
    (hkept2.ownTree.inUse_refAt (counts_dir hmode _) hq)
    (fun hpatch => hpatch.rewrites_level1 hkept2.ownTree (counts_dir hmode _) hq)).andThen
      (fun _ _ h => (hkept2.trans h).uncommitted hcovers) fun b => ?_
  refine pure fun s2 ⟨hkept3, hb, hword3, hother⟩ =>
    ⟨hkept2.trans hkept3, hb, counts_dir hmode _, ?_⟩
  have hdouble : s2.device.wordOf c (idx / 1024) = s1.device.wordOf c (idx / 1024) := by
    refine wordOf_congr (fun _ => hother c ?_ ?_) _
    · exact hkept2.ownTree.inUse_refAt (s := .double) rfl hc
    · exact hkept2.ownTree.refAt_ne (s := .double) rfl (counts_dir hmode _) hc (by simp)
  change s2.device.wordOf (s2.device.wordOf c _) _ = b
  rw [hdouble]
  exact (wordOf_of_ne hq _).trans hword3

theorem inodeAllocBlock_placed (hI : I fs) (hh : Healthy fs) (hx : OwnTree fs x)
    (hroom : x.mode = inodeModeDir ∨ l < 1034) :
    Spec (· = fs) (inodeAllocBlock x l)
      (fun r s => KeptIn I fs s x r.2 ∧ PlacedAt s r.2 (wordSlot l) r.1)
      (fun _ s => KeptIn I fs s x x) := by
  unfold inodeAllocBlock wordSlot
  by_cases hdirect : l < 10
  · rw [dif_pos hdirect, dif_pos hdirect]
    refine bind (spec_orAlloc (fun c => { x with
      blocks := update x.blocks ⟨l, hdirect⟩ c }) hI hh hx ?_ ?_
      (fun halloc => halloc.rewrites_direct ⟨l, hdirect⟩ hx)) fun c => ?_
    · simp
    · refine fun c hzero => ⟨rfl, fun i hi => ?_, fun _ => rfl, fun _ => rfl⟩
      refine update_of_ne ?_ _ _
      rintro rfl
      exact hi hzero
    · refine pure fun s ⟨hkept, _, hc⟩ =>
        ⟨hkept, hc, rfl, update_self _ _ _⟩
  · rw [dif_neg hdirect, dif_neg hdirect]
    by_cases hsingle : l - 10 < 1024
    · rw [if_pos hsingle, if_pos hsingle]
      exact allocSingle_spec hI hh hx hsingle
    rw [if_neg hsingle, if_neg hsingle]
    rcases Nat.lt_or_ge (l - 10 - 1024) (1024 * 1024) with hdouble | hdouble
    · rw [if_pos hdouble]
      exact allocDouble_spec hI hh hx (hroom.resolve_right (by omega)) hdouble
    · rw [if_neg (Nat.not_lt.mpr hdouble)]
      refine fail ?_
      rintro s rfl
      exact .refl hx hI

theorem inodeAllocBlock_spec (hI : I fs) (hh : Healthy fs) (hx : OwnTree fs x)
    (hroom : x.mode = inodeModeDir ∨ l < 1034) :
    Spec (· = fs) (inodeAllocBlock x l) (fun r s => KeptIn I fs s x r.2 ∧ DataBlockOf s r.2 r.1)
      (fun _ s => KeptIn I fs s x x) :=
  (inodeAllocBlock_placed hI hh hx hroom).consequence (fun _ h => h)
    (fun _ _ h => ⟨h.1, h.2.dataBlockOf (isPointer_wordSlot l)⟩) (fun _ _ h => h)

end

end ZiqaKernel
