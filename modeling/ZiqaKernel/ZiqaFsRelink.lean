/-
What `inode_set_block` does to a file: one logical block is bound to a new
block, pointer blocks that were missing are added, and nothing else changes.
-/
import ZiqaKernel.ZiqaFsPointers

namespace ZiqaKernel

open Disk Function

/-- From `d`, `x` to `d'`, `x'`, logical block `l` has been bound to `new`.
A reference afterwards is the new one, one that was there before, or a new
pointer block at a place of its own. -/
structure Relinked (L : Layout) (n : Nat) (d d' : Disk) (x x' : Inode)
    (l : Nat) (new : UInt32) : Prop where
  sectors : d'.totalSectors = d.totalSectors
  mode : x'.mode = x.mode
  size : x'.size = x.size
  map : ∀ k, blockMap d' x' k = if k = l then .ok (new, 0) else blockMap d x k
  upper : ∀ b, marked d' b → marked d b ∨ b.toNat < n
  marks : ∀ b, marked d b → marked d' b
  slot : ∃ home : UInt32 → Slot, ∀ s, L.counts x.mode s = true → refAt d' x' s ≠ 0 →
      (s = dataSlot l ∧ refAt d' x' s = new) ∨
      (s ≠ dataSlot l ∧ refAt d' x' s = refAt d x s) ∨
      (¬ Taken d (refAt d' x' s) ∧ marked d' (refAt d' x' s) ∧ home (refAt d' x' s) = s)
  keeps : ∀ b, b ≠ bitmapBlock → Taken d b →
    (∀ s, s.isPointer = true → L.counts x.mode s = true → refAt d x s ≠ 0 →
      b ≠ refAt d x s) → d'.block b = d.block b

variable {L : Layout} {n : Nat} {d d' : Disk} {x x' : Inode} {l : Nat} {new : UInt32}

def PointerSlot.slot : PointerSlot → Slot
  | .indirect => .indirect
  | .double => .double
  | .level1 e => .level1 (2 * e)

theorem pointerAt_fst (s : PointerSlot) : (pointerAt d x s).1 = refAt d x s.slot := by
  cases s <;> rfl

theorem Layout.counts_slot (L : Layout) (m : UInt16) (s : PointerSlot) :
    L.counts m s.slot = true := by
  cases s with
  | indirect => exact L.indirect m
  | double => exact L.double m
  | level1 e => exact L.level1 m e

theorem PointerSlot.slot_injective {s t : PointerSlot} (h : s.slot = t.slot) : s = t := by
  cases s <;> cases t <;> simp_all [PointerSlot.slot]

theorem Exclusive.pointersDistinct (hx : Exclusive (tree L d x) (InUse d)) :
    PointersDistinct d x := by
  intro s t hne heq
  rw [pointerAt_fst, ← tree_of_counts (L.counts_slot _ s)] at hne heq
  rw [pointerAt_fst, ← tree_of_counts (L.counts_slot _ t)] at heq
  exact PointerSlot.slot_injective (hx.unique hne heq)

theorem Taken.not_offered {fs : ZiqaFs} {b : UInt32} (hres : Reserved fs)
    (hb : Taken fs.device b) : ¬ Offered fs b := by
  intro h
  rcases hb with hlow | hmark
  · exact h.2.2.2 (hres b hlow h.1)
  · exact h.2.2.2 hmark

theorem Exclusive.pointersKept {fs : ZiqaFs} (hres : Reserved fs)
    (hx : Exclusive (tree L fs.device x) (InUse fs.device)) : PointersKept fs x where
  zero := Taken.not_offered hres (Or.inl (by decide))
  bitmap := Taken.not_offered hres (Or.inl (by decide))
  pointer s hne := by
    rw [pointerAt_fst, ← tree_of_counts (L.counts_slot _ s)] at hne ⊢
    have huse := hx.used hne
    exact ⟨huse.ne_bitmapBlock, huse.taken.not_offered hres⟩

theorem relinked_direct (hl : l < 10) (hx' : x' = { x with
      blocks := update x.blocks ⟨l, hl⟩ new
      blockChecksums := update x.blockChecksums ⟨l, hl⟩ 0 })
    (hmap : ∀ k, blockMap d x' k = if k = l then .ok (new, 0) else blockMap d x k) :
    Relinked L n d d x x' l new where
  sectors := rfl
  mode := by rw [hx']
  size := by rw [hx']
  map := hmap
  upper _ h := Or.inl h
  marks _ h := h
  slot := by
    refine ⟨fun _ => .indirect, fun s _ _ => ?_⟩
    have hslot : dataSlot l = .direct ⟨l, hl⟩ := by
      rw [dataSlot, dif_pos hl]
    rw [hslot, hx']
    by_cases hs : s = .direct ⟨l, hl⟩
    · subst hs
      exact Or.inl ⟨rfl, update_self _ _ _⟩
    · refine Or.inr (Or.inl ⟨hs, ?_⟩)
      cases s with
      | direct i =>
        have hne : i ≠ ⟨l, hl⟩ := fun h => hs (by rw [h])
        exact update_of_ne hne _ _
      | indirect => rfl
      | double => rfl
      | single w => rfl
      | level1 w => rfl
      | level2 w v => rfl
  keeps _ _ _ _ := rfl

theorem Provided.ne_refAt {d'' : Disk} {b : UInt32} {s s' : Slot}
    (hx : Exclusive (tree L d x) (InUse d))
    (hprov : Provided n d' d'' (refAt d x s) b) (hext : Extends n d d')
    (hs : L.counts x.mode s = true) (hs' : L.counts x.mode s' = true)
    (hne : s' ≠ s) (href : refAt d x s' ≠ 0) : refAt d x s' ≠ b := by
  rw [← tree_of_counts hs'] at href ⊢
  rcases hprov.source with rfl | ⟨-, hfresh, -⟩
  · rw [← tree_of_counts hs]
    exact hx.ne href hne
  · rintro rfl
    exact hfresh (hext.taken (hx.used href).taken)

theorem Provided.taken {recorded b : UInt32} (hprov : Provided n d d' recorded b)
    (hrec : recorded ≠ 0 → Taken d recorded) : Taken d' b := by
  rcases hprov.source with rfl | ⟨-, -, hmark⟩
  · exact hprov.extends_.taken (hrec hprov.ne_zero)
  · exact Or.inr hmark

theorem Provided.ne_bitmapBlock {recorded b : UInt32} (hprov : Provided n d d' recorded b)
    (hrec : recorded ≠ 0 → recorded ≠ bitmapBlock) : b ≠ bitmapBlock := by
  rcases hprov.source with rfl | ⟨-, hfresh, -⟩
  · exact hrec hprov.ne_zero
  · rintro rfl
    exact hfresh (Or.inl (by decide))

theorem Exclusive.inUse_refAt (hx : Exclusive (tree L d x) (InUse d))
    {s : Slot} (hs : L.counts x.mode s = true) (hne : refAt d x s ≠ 0) :
    InUse d (refAt d x s) := by
  have hused := hx.used (p := s)
  rw [tree_of_counts hs] at hused
  exact hused hne

theorem Provided.setBlock_keeps {b c recorded : UInt32} (buf : Block)
    (hprov : Provided n d d' recorded b) (hne : c ≠ bitmapBlock)
    (hc : Taken d c) (hcb : c ≠ b) :
    (d'.setBlock b buf).block c = d.block c := by
  rw [block_setBlock_ne _ _ hcb, hprov.extends_.keeps c hne hc]

theorem relinked_single {b : UInt32} (hx : Exclusive (tree L d x) (InUse d))
    (hprov : Provided n d d' x.indirect b) (hl : ¬ l < 10) (hl' : l - 10 < 512)
    {buf : Block} (hbuf : buf = setPtr (d'.block b) (l - 10) (new, 0))
    (hmap : ∀ k, blockMap (d'.setBlock b buf)
        { x with indirect := b, indirectChecksum := crc32 buf.toList } k =
      if k = l then .ok (new, 0) else blockMap d x k) :
    Relinked L n d (d'.setBlock b buf) x
      { x with indirect := b, indirectChecksum := crc32 buf.toList } l new := by
  have hslot : dataSlot l = .single (2 * (l - 10)) := by
    rw [dataSlot, dif_neg hl, if_pos hl']
  -- the patched pointer block, word by word
  have hwords : ∀ w, (d'.setBlock b buf).wordOf b w =
      if w = 2 * (l - 10) then new
      else if w = 2 * (l - 10) + 1 then 0 else d.wordOf x.indirect w := by
    intro w
    rw [wordOf_of_ne hprov.ne_zero, block_setBlock_self, hbuf,
      word_setPtr _ hl', hprov.words]
  have hb : b ≠ bitmapBlock := hprov.ne_bitmapBlock fun hne =>
    (hx.inUse_refAt (s := .indirect) (L.indirect _) hne).ne_bitmapBlock
  have hkeeps : ∀ s, s ≠ .indirect → L.counts x.mode s = true → refAt d x s ≠ 0 →
      (d'.setBlock b buf).block (refAt d x s) = d.block (refAt d x s) := by
    intro s hs hcounts hne
    have huse := hx.inUse_refAt hcounts hne
    have hprov' : Provided n d d' (refAt d x .indirect) b := hprov
    exact hprov.setBlock_keeps buf huse.ne_bitmapBlock huse.taken
      (hprov'.ne_refAt hx (Extends.refl d) (L.indirect _) hcounts hs hne)
  have hdouble : ∀ w, (d'.setBlock b buf).wordOf x.doubleIndirect w = d.wordOf x.doubleIndirect w :=
    Disk.wordOf_congr (hkeeps .double (by simp) (L.double _))
  have hsec : (d'.setBlock b buf).totalSectors = d.totalSectors :=
    hprov.extends_.sectors
  refine ⟨hsec, rfl, rfl, hmap, ?_, ?_, ?_, ?_⟩
  · intro c hc
    rw [marked_setBlock _ hb] at hc
    exact hprov.extends_.upper c hc
  · intro c hc
    rw [marked_setBlock _ hb]
    exact hprov.extends_.marked c hc
  · refine ⟨fun _ => .indirect, fun s hcounts hne => ?_⟩
    rw [hslot]
    cases s with
    | direct i => exact Or.inr (Or.inl ⟨by simp, rfl⟩)
    | indirect =>
      rcases hprov.source with heq | ⟨-, hfresh, hmark⟩
      · exact Or.inr (Or.inl ⟨by simp, heq⟩)
      · exact Or.inr (Or.inr ⟨hfresh, (marked_setBlock _ hb _ _).mpr hmark, rfl⟩)
    | double => exact Or.inr (Or.inl ⟨by simp, rfl⟩)
    | single w =>
      have hw : refAt (d'.setBlock b buf) { x with
          indirect := b, indirectChecksum := crc32 buf.toList } (.single w) =
          if w = 2 * (l - 10) then new
          else if w = 2 * (l - 10) + 1 then 0 else d.wordOf x.indirect w :=
        hwords w
      rw [hw] at hne ⊢
      by_cases heven : w = 2 * (l - 10)
      · exact Or.inl ⟨by rw [heven], by rw [if_pos heven]⟩
      · rw [if_neg heven] at hne ⊢
        by_cases hodd : w = 2 * (l - 10) + 1
        · exact absurd (if_pos hodd) hne
        · rw [if_neg hodd]
          exact Or.inr (Or.inl ⟨by simpa using heven, rfl⟩)
    | level1 w => exact Or.inr (Or.inl ⟨by simp, hdouble w⟩)
    | level2 w v =>
      refine Or.inr (Or.inl ⟨by simp, ?_⟩)
      change (d'.setBlock b buf).wordOf ((d'.setBlock b buf).wordOf x.doubleIndirect w) v = _
      rw [hdouble w]
      exact wordOf_congr (hkeeps (.level1 w) (by simp) (L.parent _ w v hcounts)) v
  · intro c hne hc hpointer
    apply hprov.setBlock_keeps buf hne hc
    rcases hprov.source with rfl | ⟨-, hfresh, -⟩
    · exact hpointer .indirect rfl (L.indirect _) hprov.ne_zero
    · rintro rfl
      exact hfresh hc

section

variable {d1 d2 : Disk} {b c : UInt32} {e f : Nat} {buf buf2 : Block}

/-- The two pointer blocks on the way to entry `f` of the block behind entry
`e`, and the contents they are given. -/
structure DoublePatch (n : Nat) (d d1 d2 : Disk) (x : Inode) (e f : Nat)
    (b c new : UInt32) (buf buf2 : Block) : Prop where
  double : Provided n d d1 x.doubleIndirect b
  level : Provided n d1 d2 (refAt d x (.level1 (2 * e))) c
  bound : e < 512
  bound2 : f < 512
  contents2 : buf2 = setPtr (d2.block c) f (new, 0)
  contents : buf = setPtr (d1.block b) e (c, crc32 buf2.toList)

section

variable (h : DoublePatch n d d1 d2 x e f b c new buf buf2)
include h

theorem DoublePatch.ne
    (hx : Exclusive (tree L d x) (InUse d)) : b ≠ c := by
  have hdouble : Provided n d d1 (refAt d x .double) b := h.double
  rcases h.level.source with hc | ⟨-, hfresh, -⟩
  · rw [hc]
    exact (hdouble.ne_refAt hx (Extends.refl d) (L.double _) (L.level1 _ e)
      (by simp) (hc ▸ h.level.ne_zero)).symm
  · rintro rfl
    exact hfresh (h.double.taken fun hne =>
      (hx.inUse_refAt (s := .double) (L.double _) hne).taken)

theorem DoublePatch.ne_refAt
    (hx : Exclusive (tree L d x) (InUse d)) {s : Slot}
    (hs : L.counts x.mode s = true) (hdouble : s ≠ .double)
    (hlevel : s ≠ .level1 (2 * e)) (hne : refAt d x s ≠ 0) :
    refAt d x s ≠ b ∧ refAt d x s ≠ c := by
  have hprov : Provided n d d1 (refAt d x .double) b := h.double
  exact ⟨hprov.ne_refAt hx (Extends.refl d) (L.double _) hs hdouble hne,
    h.level.ne_refAt hx h.double.extends_ (L.level1 _ e) hs hlevel hne⟩

theorem DoublePatch.words (w : Nat) :
    ((d2.setBlock c buf2).setBlock b buf).wordOf b w =
      if w = 2 * e then c
      else if w = 2 * e + 1 then crc32 buf2.toList
      else d.wordOf x.doubleIndirect w := by
  rw [wordOf_of_ne h.double.ne_zero, block_setBlock_self, h.contents,
    word_setPtr _ h.bound, h.double.words]

theorem DoublePatch.words2
    (hx : Exclusive (tree L d x) (InUse d)) (w : Nat) :
    ((d2.setBlock c buf2).setBlock b buf).wordOf c w =
      if w = 2 * f then new
      else if w = 2 * f + 1 then 0
      else refAt d x (.level2 (2 * e) w) := by
  have hkeep : d1.wordOf (refAt d x (.level1 (2 * e))) w =
      d.wordOf (refAt d x (.level1 (2 * e))) w := by
    refine wordOf_congr (fun hne => ?_) w
    have huse := hx.inUse_refAt (L.level1 _ e) hne
    exact h.double.extends_.keeps _ huse.ne_bitmapBlock huse.taken
  rw [wordOf_of_ne h.level.ne_zero,
    block_setBlock_ne _ _ (h.ne hx).symm, block_setBlock_self,
    h.contents2, word_setPtr _ h.bound2, h.level.words, hkeep]
  rfl

theorem DoublePatch.keeps
    {k : UInt32} (hne : k ≠ bitmapBlock) (hk : Taken d k) (hkb : k ≠ b)
    (hkc : k ≠ c) :
    ((d2.setBlock c buf2).setBlock b buf).block k = d.block k := by
  rw [block_setBlock_ne _ _ hkb, block_setBlock_ne _ _ hkc,
    (h.double.extends_.trans h.level.extends_).keeps k hne hk]

theorem DoublePatch.keeps_refAt
    (hx : Exclusive (tree L d x) (InUse d)) {s : Slot}
    (hs : L.counts x.mode s = true) (hdouble : s ≠ .double)
    (hlevel : s ≠ .level1 (2 * e)) (hne : refAt d x s ≠ 0) :
    ((d2.setBlock c buf2).setBlock b buf).block (refAt d x s) = d.block (refAt d x s) := by
  obtain ⟨hb, hc⟩ := h.ne_refAt hx hs hdouble hlevel hne
  have huse := hx.inUse_refAt hs hne
  exact h.keeps huse.ne_bitmapBlock huse.taken hb hc

theorem DoublePatch.marked_iff
    (hx : Exclusive (tree L d x) (InUse d)) (k : UInt32) :
    marked ((d2.setBlock c buf2).setBlock b buf) k ↔ marked d2 k := by
  have hb : b ≠ bitmapBlock := h.double.ne_bitmapBlock fun hne =>
    (hx.inUse_refAt (s := .double) (L.double _) hne).ne_bitmapBlock
  have hc : c ≠ bitmapBlock := h.level.ne_bitmapBlock fun hne =>
    (hx.inUse_refAt (L.level1 _ e) hne).ne_bitmapBlock
  rw [marked_setBlock _ hb, marked_setBlock _ hc]

theorem DoublePatch.refAt_cases
    (hx : Exclusive (tree L d x) (InUse d)) (hmode : x.mode ≠ inodeModeDir)
    (hx' : x' = { x with
      doubleIndirect := b
      doubleIndirectChecksum := crc32 buf.toList }) {s : Slot}
    (hs : L.counts x.mode s = true) {r : UInt32}
    (hr : refAt ((d2.setBlock c buf2).setBlock b buf) x' s = r)
    (hne : r ≠ 0) :
    (s = .level2 (2 * e) (2 * f) ∧ r = new) ∨ (s ≠ .level2 (2 * e) (2 * f) ∧ r = refAt d x s) ∨
      (s = .double ∧ r = b) ∨ (s = .level1 (2 * e) ∧ r = c) := by
  subst hx'
  -- in a file a counted word of the double-indirect block is not a checksum
  have heven : ∀ w, L.counts x.mode (.level1 w) = true → w ≠ 2 * e + 1 := by
    rintro w hw rfl
    rw [L.checksums _ _ hmode] at hw
    exact absurd hw (by decide)
  cases s with
  | direct i => exact Or.inr (Or.inl ⟨by simp, hr.symm⟩)
  | indirect => exact Or.inr (Or.inl ⟨by simp, hr.symm⟩)
  | double => exact Or.inr (Or.inr (Or.inl ⟨rfl, hr.symm⟩))
  | single w =>
    refine Or.inr (Or.inl ⟨by simp, ?_⟩)
    rw [← hr]
    exact wordOf_congr (h.keeps_refAt (s := .indirect) hx (L.indirect _) (by simp) (by simp)) w
  | level1 w =>
    have hw := h.words w
    rw [if_neg (heven w hs)] at hw
    by_cases he : w = 2 * e
    · rw [if_pos he] at hw
      exact Or.inr (Or.inr (Or.inr ⟨by rw [he], hr.symm.trans hw⟩))
    · rw [if_neg he] at hw
      exact Or.inr (Or.inl ⟨by simp, hr.symm.trans hw⟩)
  | level2 w v =>
    have hlevel := L.parent _ w v hs
    have hw := h.words w
    rw [if_neg (heven w hlevel)] at hw
    change ((d2.setBlock c buf2).setBlock b buf).wordOf
      (((d2.setBlock c buf2).setBlock b buf).wordOf b w) v = r at hr
    rw [hw] at hr
    by_cases he : w = 2 * e
    · rw [if_pos he, h.words2 hx] at hr
      by_cases hf : v = 2 * f
      · rw [if_pos hf] at hr
        exact Or.inl ⟨by rw [he, hf], hr.symm⟩
      · rw [if_neg hf] at hr
        by_cases hodd : v = 2 * f + 1
        · rw [if_pos hodd] at hr
          exact absurd hr.symm hne
        · rw [if_neg hodd] at hr
          refine Or.inr (Or.inl ⟨?_, by rw [he]; exact hr.symm⟩)
          simp [hf]
    · rw [if_neg he] at hr
      refine Or.inr (Or.inl ⟨by simp [he], ?_⟩)
      rw [← hr]
      exact wordOf_congr (h.keeps_refAt (s := .level1 w) hx hlevel
        (by simp) (by simpa using he)) v

end

theorem relinked_double
    (h : DoublePatch n d d1 d2 x ((l - 10 - 512) / 512) ((l - 10 - 512) % 512) b c new buf buf2)
    (hx : Exclusive (tree L d x) (InUse d)) (hmode : x.mode ≠ inodeModeDir)
    (hl : ¬ l < 10) (hl' : ¬ l - 10 < 512)
    (hmap : ∀ k, blockMap ((d2.setBlock c buf2).setBlock b buf)
        { x with doubleIndirect := b, doubleIndirectChecksum := crc32 buf.toList } k =
      if k = l then .ok (new, 0) else blockMap d x k) :
    Relinked L n d ((d2.setBlock c buf2).setBlock b buf) x { x with
        doubleIndirect := b
        doubleIndirectChecksum := crc32 buf.toList } l new := by
  have hslot : dataSlot l = .level2 (2 * ((l - 10 - 512) / 512)) (2 * ((l - 10 - 512) % 512)) := by
    rw [dataSlot, dif_neg hl, if_neg hl']
  have hext := h.double.extends_.trans h.level.extends_
  refine ⟨hext.sectors, rfl, rfl, hmap, ?_, ?_, ?_, ?_⟩
  · intro k hk
    exact hext.upper k ((h.marked_iff hx k).mp hk)
  · intro k hk
    exact (h.marked_iff hx k).mpr (hext.marked k hk)
  · refine ⟨fun k => if k = b then .double else
      .level1 (2 * ((l - 10 - 512) / 512)), fun s hs hne => ?_⟩
    rw [hslot]
    rcases h.refAt_cases hx hmode rfl hs rfl hne with
      hnew | hold | ⟨rfl, hr⟩ | ⟨rfl, hr⟩
    · exact Or.inl hnew
    · exact Or.inr (Or.inl hold)
    · rw [hr]
      rcases h.double.source with heq | ⟨-, hfresh, hmark⟩
      · exact Or.inr (Or.inl ⟨by simp, heq⟩)
      · exact Or.inr (Or.inr ⟨hfresh, (h.marked_iff hx b).mpr
          (h.level.extends_.marked b hmark), if_pos rfl⟩)
    · rw [hr]
      rcases h.level.source with heq | ⟨-, hfresh, hmark⟩
      · exact Or.inr (Or.inl ⟨by simp, heq⟩)
      · exact Or.inr (Or.inr ⟨fun ht => hfresh (h.double.extends_.taken ht),
          (h.marked_iff hx c).mpr hmark, if_neg (h.ne hx).symm⟩)
  · intro k hne hk hpointer
    apply h.keeps hne hk
    · rcases h.double.source with rfl | ⟨-, hfresh, -⟩
      · exact hpointer .double rfl (L.double _) h.double.ne_zero
      · rintro rfl
        exact hfresh hk
    · rcases h.level.source with rfl | ⟨-, hfresh, -⟩
      · exact hpointer (.level1 _) rfl (L.level1 _ _) h.level.ne_zero
      · rintro rfl
        exact hfresh (h.double.extends_.taken hk)

end

theorem inodeSetBlock_spec {fs fs' : ZiqaFs} (hres : Reserved fs)
    (hx : Exclusive (tree L fs.device x) (InUse fs.device))
    (hmode : x.mode ≠ inodeModeDir) {p : UInt32 × UInt32}
    (hmap : blockMap fs.device x l = .ok p)
    (h : (inodeSetBlock x l new 0).run fs = (.ok x', fs')) :
    Relinked L fs.sb.totalBlocks.toNat fs.device fs'.device x x' l new ∧ SameGeometry fs fs' := by
  have hlaw := (inodeSetBlock_rebound ⟨hx.pointersKept hres, hx.pointersDistinct⟩ h).map
    (pathSlots_sumMatches hmap)
  unfold inodeSetBlock at h
  split_ifs at h with hdirect hsingle hdouble
  · obtain ⟨hx', rfl⟩ := Fallible.run_pure_eq_ok_iff.mp h
    exact ⟨relinked_direct hdirect hx'.symm hlaw, SameGeometry.refl fs⟩
  · obtain ⟨b, fs1, halloc, hrange, rfl, rfl⟩ := setSingle_ok h
    obtain ⟨hprov, hgeo⟩ := orAlloc_spec hres halloc
    exact ⟨relinked_single hx hprov hdirect hsingle rfl hlaw, hgeo.firstDataBlock, hgeo.totalBlocks⟩
  · obtain ⟨b, fs1, c, fs2, hdbl, hlevel, hrange, hrange2, buf2, buf, hbuf2,
      hbuf, rfl, rfl⟩ := setDouble_ok h
    obtain ⟨hprov, hgeo⟩ := orAlloc_spec hres hdbl
    obtain ⟨hprov2, hgeo2⟩ :=
      orAlloc_spec (hres.extends hgeo hprov.extends_) hlevel
    have hentry : (ptr (fs1.device.block b) ((l - 10 - 512) / 512)).1 =
        refAt fs.device x (.level1 (2 * ((l - 10 - 512) / 512))) :=
      hprov.words _
    rw [hentry, hgeo.totalBlocks] at hprov2
    have hpatch : DoublePatch fs.sb.totalBlocks.toNat fs.device fs1.device
        fs2.device x ((l - 10 - 512) / 512) ((l - 10 - 512) % 512) b c new buf buf2 :=
      ⟨hprov, hprov2, by omega, by omega, hbuf2, hbuf⟩
    have hgeo3 := hgeo.trans hgeo2
    exact ⟨relinked_double hpatch hx hmode hdirect hsingle hlaw,
      hgeo3.firstDataBlock, hgeo3.totalBlocks⟩
  · simp [err] at h

end ZiqaKernel
