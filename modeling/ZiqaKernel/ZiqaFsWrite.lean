/-
The copy-on-write loop of `write_file`: each round puts a new block in the
place of an old one.  Blocks that the file does not reference are untouched
throughout.
-/
import ZiqaKernel.ZiqaFsRead
import ZiqaKernel.ZiqaFsRelink

namespace ZiqaKernel

open Fallible Image Function SameGeometry

variable {L : Layout} {n : Nat} {d d' d'' : Disk} {x x' x'' : Inode}

/-- No reference of `x` leads to block `b`. -/
def Unreferenced (L : Layout) (d : Disk) (x : Inode) (b : UInt32) : Prop :=
  ∀ s, tree L d x s ≠ 0 → tree L d x s ≠ b

/-- From `d`, `x` to `d'`, `x'` only blocks that the file references, or that
nothing referenced, have been changed or freed. -/
structure Rewrites (L : Layout) (n : Nat) (d d' : Disk) (x x' : Inode) : Prop where
  sectors : d'.totalSectors = d.totalSectors
  mode : x'.mode = x.mode
  exclusive : Exclusive (tree L d' x') (InUse d')
  origin : ∀ s, tree L d' x' s ≠ 0 → Taken d (tree L d' x' s) → ∃ s0, tree L d' x' s = tree L d x s0
  upper : ∀ b, marked d' b → marked d b ∨ b.toNat < n
  marks : ∀ b, marked d b → Unreferenced L d x b → marked d' b
  keeps : ∀ b, b ≠ bitmapBlock → Taken d b → Unreferenced L d x b → d'.block b = d.block b

theorem Rewrites.refl (hx : Exclusive (tree L d x) (InUse d)) : Rewrites L n d d x x where
  sectors := rfl
  mode := rfl
  exclusive := hx
  origin s _ _ := ⟨s, rfl⟩
  upper _ h := Or.inl h
  marks _ h _ := h
  keeps _ _ _ _ := rfl

theorem Rewrites.taken (h : Rewrites L n d d' x x') {b : UInt32}
    (hb : Taken d b) (href : Unreferenced L d x b) : Taken d' b :=
  hb.imp_right fun hm => h.marks b hm href

theorem Rewrites.unreferenced (h : Rewrites L n d d' x x') {b : UInt32}
    (hb : Taken d b) (href : Unreferenced L d x b) :
    Unreferenced L d' x' b := by
  rintro s hs rfl
  obtain ⟨s0, hs0⟩ := h.origin s hs hb
  exact href s0 (hs0 ▸ hs) hs0.symm

theorem Rewrites.trans (h : Rewrites L n d d' x x')
    (h' : Rewrites L n d' d'' x' x'') : Rewrites L n d d'' x x'' where
  sectors := h'.sectors.trans h.sectors
  mode := h'.mode.trans h.mode
  exclusive := h'.exclusive
  origin s hs htaken := by
    -- a block taken before and not referenced by the file stays taken, so the
    -- file cannot have acquired it since
    by_contra hnone
    have href : Unreferenced L d x (tree L d'' x'' s) :=
      fun s0 _ heq => hnone ⟨s0, heq.symm⟩
    obtain ⟨s1, hs1⟩ := h'.origin s hs (h.taken htaken href)
    exact h.unreferenced htaken href s1 (hs1 ▸ hs) hs1.symm
  upper b hb := (h'.upper b hb).elim (h.upper b) Or.inr
  marks b hb href :=
    h'.marks b (h.marks b hb href) (h.unreferenced (Or.inr hb) href)
  keeps b hne hb href := by
    rw [h'.keeps b hne (h.taken hb href) (h.unreferenced hb href), h.keeps b hne hb href]

variable {inodes : UInt32 → Option Inode}

theorem Owned.unreferenced {id j : UInt32}
    {y : Inode} (h : Owned L d inodes) (hx : inodes id = some x)
    (hy : inodes j = some y) (hne : j ≠ id) (s : Slot) :
    Unreferenced L d x (tree L d y s) := by
  intro s0 hs0 heq
  rw [← refs_of_some hx, ← refs_of_some hy] at heq
  rw [← refs_of_some hx] at hs0
  exact hne (Prod.mk.inj (h.unique hs0 heq)).1.symm

theorem Rewrites.sameTree (h : Rewrites L n d d' x x') {id j : UInt32} {y : Inode}
    (howned : Owned L d inodes) (hx : inodes id = some x)
    (hy : inodes j = some y) (hne : j ≠ id) : SameTree L d d' y where
  sectors := h.sectors
  keeps s hs := by
    have huse := (howned.exclusive_tree hy).used hs
    exact h.keeps _ huse.ne_bitmapBlock huse.taken (howned.unreferenced hx hy hne s)

theorem Rewrites.owned (h : Rewrites L n d d' x x') {id : UInt32}
    (howned : Owned L d inodes) (hx : inodes id = some x) :
    Owned L d' (update inodes id (some x')) := by
  have hself : ∀ s, refs L d' (update inodes id (some x')) (id, s) =
      tree L d' x' s := fun s =>
    refs_of_some (update_self _ _ _) s
  have hother : ∀ j s, j ≠ id → refs L d' (update inodes id (some x')) (j, s) =
        refs L d inodes (j, s) := by
    intro j s hj
    unfold refs
    simp only [update_of_ne hj]
    cases hy : inodes j with
    | none => rfl
    | some y => simp only [(h.sameTree howned hx hy hj).tree_eq]
  -- a block of the file that another inode references was a block of the file
  have hmixed : ∀ s j s', j ≠ id → tree L d' x' s ≠ 0 →
      tree L d' x' s ≠ refs L d inodes (j, s') := by
    intro s j s' hj hs heq
    have huse := howned.used (heq ▸ hs)
    obtain ⟨s0, hs0⟩ := h.origin s hs (heq ▸ huse.taken)
    rw [hs0, ← refs_of_some hx] at heq hs
    exact hj (Prod.mk.inj (howned.unique hs heq)).1.symm
  constructor
  · rintro ⟨j, s⟩ ⟨j', s'⟩ hp heq
    by_cases hj : j = id <;> by_cases hj' : j' = id
    · subst hj hj'
      rw [hself] at hp heq
      rw [hself] at heq
      rw [h.exclusive.unique hp heq]
    · subst hj
      rw [hself] at hp heq
      rw [hother j' s' hj'] at heq
      exact absurd heq (hmixed s j' s' hj' hp)
    · subst hj'
      rw [hself] at heq
      rw [heq] at hp
      rw [hother j s hj] at heq
      exact absurd heq.symm (hmixed s' j s hj hp)
    · rw [hother j s hj] at hp heq
      rw [hother j' s' hj'] at heq
      exact howned.unique hp heq
  · rintro ⟨j, s⟩ hp
    by_cases hj : j = id
    · subst hj
      rw [hself] at hp ⊢
      exact h.exclusive.used hp
    · rw [hother j s hj] at hp ⊢
      have huse := howned.used hp
      refine ⟨huse.1, h.marks _ huse.2 ?_⟩
      cases hy : inodes j with
      | none => simp [refs, hy] at hp
      | some y =>
        rw [refs_of_some hy]
        exact howned.unreferenced hx hy hj s

/-- At most block `old` has been freed, and no other block has changed. -/
structure Released (d d' : Disk) (old : UInt32) : Prop where
  sectors : d'.totalSectors = d.totalSectors
  upper : ∀ b, marked d' b → marked d b
  marks : ∀ b, marked d b → (old ≠ 0 → b ≠ old) → marked d' b
  keeps : ∀ b, b ≠ bitmapBlock → d'.block b = d.block b

variable {fs fs' : ZiqaFs}

theorem freeDataBlock_released {b : UInt32} {u : Unit}
    (hb0 : b ≠ 0) (h : (freeDataBlock b).run fs = (.ok u, fs')) :
    Released fs.device fs'.device b ∧ SameGeometry fs fs' := by
  obtain ⟨hb, rfl⟩ := freeDataBlock_ok h
  refine ⟨⟨rfl, fun c hc => ?_, fun c hc hne => ?_,
    fun c hne => Disk.block_setBlock_ne _ _ hne⟩, ⟨rfl, rfl⟩⟩
  · exact ((marked_clearBitmapBit _ hb c).mp hc).1
  · exact (marked_clearBitmapBit _ hb c).mpr ⟨hc, hne hb0⟩

theorem oldContents_ok {old : UInt32} {keep : Bool}
    {buf : Block} (h : (oldContents old keep).run fs = (.ok buf, fs')) :
    fs' = fs ∧ (old = 0 → buf = zero) ∧
      (old ≠ 0 → keep = true → buf = fs.device.block old) := by
  unfold oldContents at h
  split_ifs at h with hread
  · obtain ⟨-, rfl, rfl⟩ := readBlock_eq_ok_iff.mp h
    exact ⟨rfl, fun hold => absurd hold hread.1, fun _ _ => rfl⟩
  · rw [run_pure_eq_ok_iff] at h
    exact ⟨h.2.symm, fun _ => h.1.symm, fun hold hkeep => absurd ⟨hold, hkeep⟩ hread⟩

variable {rest : List UInt8}

theorem writeRound_ok {pos : Nat} (h : (writeRound x pos rest).run fs = (.ok x', fs')) :
    ∃ old sum buf new fs1 fs3 image, blockMap fs.device x (logicalOf pos) = .ok (old, sum) ∧
      (old = 0 → buf = zero) ∧
      (old ≠ 0 → 0 < pos % 4096 ∨ rest.length < 4096 → buf = fs.device.block old) ∧
      image = buf.splice (pos % 4096) (min (4096 - pos % 4096) rest.length)
        (fun k => rest.getD k 0) ∧
      allocDataBlock.run fs = (.ok new, fs1) ∧ fs1.device.InRange new ∧
      (inodeSetBlock x (logicalOf pos) new 0).run
        { fs1 with device := fs1.device.setBlock new image } = (.ok x', fs3) ∧
      Released fs3.device fs'.device old ∧ SameGeometry fs3 fs' := by
  rw [writeRound, run_bind_eq_ok_iff] at h
  obtain ⟨⟨old, sum⟩, fs0, hget, h⟩ := h
  rw [inodeGetBlock_run, Prod.mk.injEq] at hget
  obtain ⟨hmap, rfl⟩ := hget
  simp only at h
  rw [run_bind_eq_ok_iff] at h
  obtain ⟨buf, fs0, hold, h⟩ := h
  obtain ⟨rfl, hzero, hbuf⟩ := oldContents_ok hold
  rw [run_bind_eq_ok_iff] at h
  obtain ⟨new, fs1, halloc, h⟩ := h
  rw [run_bind_eq_ok_iff] at h
  obtain ⟨u, fs2, hwrite, h⟩ := h
  obtain ⟨hrange, rfl⟩ := writeBlock_eq_ok_iff.mp hwrite
  rw [run_bind_eq_ok_iff] at h
  obtain ⟨x1, fs3, hset, h⟩ := h
  refine ⟨old, sum, buf, new, fs1, fs3, _, hmap, hzero, ?_, rfl, halloc, hrange, ?_⟩
  · intro hne hkeep
    exact hbuf hne (by simpa using hkeep)
  split_ifs at h with hfree
  · rw [run_bind_eq_ok_iff] at h
    obtain ⟨u, fs4, hfreed, h⟩ := h
    obtain ⟨rfl, rfl⟩ := run_pure_eq_ok_iff.mp h
    exact ⟨hset, freeDataBlock_released hfree.1 hfreed⟩
  · obtain ⟨rfl, rfl⟩ := run_pure_eq_ok_iff.mp h
    exact ⟨hset, ⟨rfl, fun _ hb => hb, fun _ hb _ => hb, fun _ _ => rfl⟩, refl _⟩

section

variable {d1 d3 : Disk} {l : Nat} {new old : UInt32} {image : Block}

/-- A round seen from the device: a new block is filled and bound to the
logical block `l`, and the block that was bound to it is freed. -/
structure Round (L : Layout) (n : Nat) (d d1 d3 d' : Disk) (x x' : Inode)
    (l : Nat) (new : UInt32) (image : Block) : Prop where
  alloc : Allocated n d d1 new
  relinked : Relinked L n (d1.setBlock new image) d3 x x' l new
  released : Released d3 d' (refAt d x (dataSlot l))

section

variable (h : Round L n d d1 d3 d' x x' l new image)
include h

theorem Round.extends_ :
    Extends n d (d1.setBlock new image) :=
  h.alloc.extends_.setBlock h.alloc.fresh image

theorem Round.new_ne_bitmapBlock :
    new ≠ bitmapBlock := by
  rintro rfl
  exact h.alloc.fresh (Or.inl (by decide))

section

variable (hx : Exclusive (tree L d x) (InUse d))
include hx

theorem Round.new_ne_refAt {s : Slot}
    (hs : L.counts x.mode s = true) : new ≠ refAt d x s := by
  rintro rfl
  by_cases hne : refAt d x s = 0
  · exact h.alloc.fresh (Or.inl (by rw [hne]; decide))
  · exact h.alloc.fresh (hx.inUse_refAt hs hne).taken

theorem Round.slot :
    ∃ home : UInt32 → Slot, ∀ s, tree L d3 x' s ≠ 0 → (s = dataSlot l ∧ tree L d3 x' s = new) ∨
      (s ≠ dataSlot l ∧ tree L d3 x' s = tree L d x s) ∨
      (¬ Taken (d1.setBlock new image) (tree L d3 x' s) ∧
        marked d3 (tree L d3 x' s) ∧ home (tree L d3 x' s) = s) := by
  obtain ⟨home, hslot⟩ := h.relinked.slot
  refine ⟨home, fun s hs => ?_⟩
  have hcounts : L.counts x.mode s = true := by
    by_contra hno
    rw [tree, h.relinked.mode, if_neg hno] at hs
    exact hs rfl
  have htree : tree L d3 x' s = refAt d3 x' s :=
    tree_of_counts (h.relinked.mode ▸ hcounts)
  rw [htree] at hs ⊢
  rw [tree_of_counts hcounts, ← (h.extends_.sameTree hx).refAt_eq hcounts]
  exact hslot s hcounts hs

/-- After the new block is bound, the references are exclusive and the block
that was bound before is not among them. -/
theorem Round.exclusive_bound :
    Exclusive (tree L d3 x') (fun b => InUse d3 b ∧ b ≠ refAt d x (dataSlot l)) := by
  obtain ⟨home, hslot⟩ := h.slot hx
  have hdata := L.dataSlot x.mode l
  have hnewTaken : Taken (d1.setBlock new image) new :=
    Or.inr ((marked_setBlock _ h.new_ne_bitmapBlock _ _).mpr h.alloc.marked)
  have hold : ∀ b, InUse d b → Taken (d1.setBlock new image) b :=
    fun b hb => h.extends_.taken hb.taken
  apply hx.extend
  · intro s hs huse
    rcases hslot s hs with ⟨-, hnew⟩ | ⟨-, hsame⟩ | ⟨hfresh, -, -⟩
    · exact absurd (hnew ▸ huse.taken) h.alloc.fresh
    · exact hsame
    · exact absurd (hold _ huse) hfresh
  · intro s s' hs hunused heq
    have hs' : tree L d3 x' s' ≠ 0 := heq ▸ hs
    rcases hslot s hs with ⟨hsl, hnew⟩ | ⟨-, hsame⟩ | ⟨hfresh, -, hhome⟩
    · rcases hslot s' hs' with ⟨hsl', -⟩ | ⟨-, hsame'⟩ | ⟨hfresh', -, -⟩
      · rw [hsl, hsl']
      · rw [heq, hsame'] at hunused
        exact absurd (hx.used (hsame' ▸ hs')) hunused
      · rw [← heq, hnew] at hfresh'
        exact absurd hnewTaken hfresh'
    · rw [hsame] at hunused
      exact absurd (hx.used (hsame ▸ hs)) hunused
    · rcases hslot s' hs' with ⟨-, hnew'⟩ | ⟨-, hsame'⟩ | ⟨-, -, hhome'⟩
      · rw [heq, hnew'] at hfresh
        exact absurd hnewTaken hfresh
      · rw [heq, hsame'] at hunused
        exact absurd (hx.used (hsame' ▸ hs')) hunused
      · rw [← hhome, ← hhome', heq]
  · intro s hs
    rcases hslot s hs with ⟨-, hnew⟩ | ⟨hne, hsame⟩ | ⟨hfresh, hmark, -⟩
    · rw [hnew]
      have hlow : ¬ new.toNat < 5 := fun hlt => h.alloc.fresh (Or.inl hlt)
      refine ⟨⟨by omega, h.relinked.marks new ?_⟩, h.new_ne_refAt hx hdata⟩
      exact (marked_setBlock _ h.new_ne_bitmapBlock _ _).mpr h.alloc.marked
    · rw [hsame] at hs ⊢
      have huse := hx.used hs
      refine ⟨⟨huse.1, h.relinked.marks _ (h.extends_.marked _ huse.2)⟩, ?_⟩
      rw [← tree_of_counts hdata]
      exact hx.ne hs hne
    · have hlow : ¬ (tree L d3 x' s).toNat < 5 := fun hlt => hfresh (Or.inl hlt)
      refine ⟨⟨by omega, hmark⟩, fun heq => ?_⟩
      rw [heq] at hfresh hs
      exact hfresh (hold _ (hx.inUse_refAt hdata hs))

theorem Round.sameTree : SameTree L d3 d' x' where
  sectors := h.released.sectors
  keeps _ hs := h.released.keeps _ ((h.exclusive_bound hx).used hs).1.ne_bitmapBlock

theorem Round.rewrites : Rewrites L n d d' x x' := by
  have htree := (h.sameTree hx).tree_eq
  have hbound := h.exclusive_bound hx
  refine ⟨?_, h.relinked.mode, ?_, ?_, ?_, ?_, ?_⟩
  · rw [h.released.sectors, h.relinked.sectors, h.extends_.sectors]
  · rw [htree]
    refine hbound.restrict (fun _ _ => rfl) fun s hs => ?_
    obtain ⟨huse, hne⟩ := hbound.used hs
    exact ⟨huse.1, h.released.marks _ huse.2 fun _ => hne⟩
  · intro s hs htaken
    rw [htree] at hs htaken ⊢
    obtain ⟨home, hslot⟩ := h.slot hx
    rcases hslot s hs with ⟨-, hnew⟩ | ⟨-, hsame⟩ | ⟨hfresh, -, -⟩
    · exact absurd (hnew ▸ htaken) h.alloc.fresh
    · exact ⟨s, hsame⟩
    · exact absurd (h.extends_.taken htaken) hfresh
  · intro b hb
    rcases h.relinked.upper b (h.released.upper b hb) with hb | hb
    · exact h.extends_.upper b hb
    · exact Or.inr hb
  · intro b hb href
    apply h.released.marks b (h.relinked.marks b (h.extends_.marked b hb))
    rw [← tree_of_counts (L.dataSlot x.mode l)]
    exact fun hne => (href _ hne).symm
  · intro b hne htaken href
    have hpointer : ∀ s, L.counts x.mode s = true → refAt (d1.setBlock new image) x s ≠ 0 →
        b ≠ refAt (d1.setBlock new image) x s := by
      intro s hs
      rw [(h.extends_.sameTree hx).refAt_eq hs, ← tree_of_counts hs]
      exact fun hne => (href s hne).symm
    rw [h.released.keeps b hne, h.relinked.keeps b hne (h.extends_.taken htaken)
      fun s _ => hpointer s, h.extends_.keeps b hne htaken]

/-- The blocks that the references of the file named before are still there,
pointer blocks excepted. -/
theorem Round.block_data {k : Nat}
    (hne : refAt d x (dataSlot k) ≠ 0) :
    d3.block (refAt d x (dataSlot k)) = d.block (refAt d x (dataSlot k)) := by
  have hdata := L.dataSlot x.mode k
  have huse := hx.inUse_refAt hdata hne
  rw [h.relinked.keeps _ huse.ne_bitmapBlock (h.extends_.taken huse.taken),
    h.extends_.keeps _ huse.ne_bitmapBlock huse.taken]
  intro s hpointer hs _
  rw [(h.extends_.sameTree hx).refAt_eq hs, ← tree_of_counts hs, ← tree_of_counts hdata]
  apply hx.ne (by rwa [tree_of_counts hdata])
  rintro rfl
  rw [isPointer_dataSlot] at hpointer
  cases hpointer

theorem Round.block_new : d3.block new = image := by
  have hmark : marked (d1.setBlock new image) new :=
    (marked_setBlock _ h.new_ne_bitmapBlock _ _).mpr h.alloc.marked
  rw [h.relinked.keeps new h.new_ne_bitmapBlock (Or.inr hmark), Disk.block_setBlock_self]
  intro s _ hs _
  rw [(h.extends_.sameTree hx).refAt_eq hs]
  exact h.new_ne_refAt hx hs

theorem Round.contents_eq (hrange : d1.InRange new) (k : Nat) :
    contents d' x' k =
      if k = l then .ok (some image) else contents d x k := by
  have hsec : d3.totalSectors = d1.totalSectors := h.relinked.sectors
  rw [(h.sameTree hx).contents_eq]
  unfold contents
  rw [h.relinked.map k, (h.extends_.sameTree hx).blockMap_eq]
  by_cases hk : k = l
  · have hne : new ≠ 0 := by
      rintro rfl
      exact h.alloc.fresh (Or.inl (by decide))
    rw [if_pos hk, if_pos hk]
    simp only [hne, ↓reduceIte]
    rw [Disk.load, if_pos ((Disk.inRange_congr hsec new).mpr hrange), h.block_new hx]
    rfl
  · rw [if_neg hk, if_neg hk]
    cases hmap : blockMap d x k with
    | error e => rfl
    | ok p =>
      simp only
      by_cases hp : p.1 = 0
      · rw [if_pos hp, if_pos hp]
      · have hdata := (blockMap_eq_ok hmap).1
        rw [if_neg hp, if_neg hp, Disk.load_congr (hsec.trans h.alloc.extends_.sectors)]
        rw [hdata] at hp ⊢
        exact h.block_data hx hp

end

end

end

/-- One successful round of `write_file` rewrites the file and changes the
contents of one logical block: the new data, around it what was there. -/
theorem writeRound_spec {pos : Nat}
    (hres : Reserved fs) (hx : Exclusive (tree L fs.device x) (InUse fs.device))
    (hmode : x.mode ≠ inodeModeDir)
    (h : (writeRound x pos rest).run fs = (.ok x', fs')) :
    Rewrites L fs.sb.totalBlocks.toNat fs.device fs'.device x x' ∧
      SameGeometry fs fs' ∧ x'.size = x.size ∧ ∃ buf image,
        image = buf.splice (pos % 4096) (min (4096 - pos % 4096) rest.length)
          (fun k => rest.getD k 0) ∧
        (contents fs.device x (logicalOf pos) = .ok none → buf = zero) ∧
        (∀ b, contents fs.device x (logicalOf pos) = .ok (some b) →
          0 < pos % 4096 ∨ rest.length < 4096 → buf = b) ∧
        ∀ k, contents fs'.device x' k =
          if k = logicalOf pos then .ok (some image)
          else contents fs.device x k := by
  obtain ⟨old, sum, buf, new, fs1, fs3, image, hmap, hzero, hbuf, himage, halloc,
    hrange, hset, hreleased, hgeo3⟩ := writeRound_ok h
  obtain ⟨hallocated, hgeo1⟩ := allocDataBlock_spec hres halloc
  have hext := hallocated.extends_.setBlock hallocated.fresh image
  have hsame := hext.sameTree hx
  have hx2 : Exclusive (tree L (fs1.device.setBlock new image) x)
      (InUse (fs1.device.setBlock new image)) := by
    rw [hsame.tree_eq]
    refine hx.restrict (fun _ _ => rfl) fun s hs => ?_
    exact ⟨(hx.used hs).1, hext.marked _ (hx.used hs).2⟩
  have hres2 : Reserved { fs1 with device := fs1.device.setBlock new image } :=
    hres.extends ⟨hgeo1.firstDataBlock, hgeo1.totalBlocks⟩ hext
  have hmap2 : blockMap (fs1.device.setBlock new image) x (logicalOf pos) = .ok (old, sum) := by
    rw [hsame.blockMap_eq, hmap]
  obtain ⟨hrelinked, hgeo2⟩ := inodeSetBlock_spec hres2 hx2 hmode hmap2 hset
  have hold : old = refAt fs.device x (dataSlot (logicalOf pos)) :=
    (blockMap_eq_ok hmap).1
  have hround : Round L fs.sb.totalBlocks.toNat fs.device fs1.device fs3.device
      fs'.device x x' (logicalOf pos) new image := by
    refine ⟨hallocated, ?_, hold ▸ hreleased⟩
    rw [← hgeo1.totalBlocks]
    exact hrelinked
  refine ⟨hround.rewrites hx, ?_, hrelinked.size, buf, image, himage, ?_, ?_,
    hround.contents_eq hx hrange⟩
  · exact (hgeo1.trans ⟨hgeo2.firstDataBlock, hgeo2.totalBlocks⟩).trans hgeo3
  · intro hnone
    by_contra hne
    unfold contents at hnone
    rw [hmap] at hnone
    simp only [mt hzero hne, ↓reduceIte] at hnone
    obtain ⟨c, -, hc⟩ := Except.map_eq_ok hnone
    cases hc
  · intro b hb hkeep
    unfold contents at hb
    rw [hmap] at hb
    by_cases hne : old = 0
    · simp [hne] at hb
    · simp only [hne, ↓reduceIte] at hb
      obtain ⟨c, hload, hc⟩ := Except.map_eq_ok hb
      rw [Option.some.injEq] at hc
      unfold Disk.load at hload
      split_ifs at hload with hin
      rw [hbuf hne hkeep, ← hc]
      exact Except.ok.inj hload

/-- The bytes from `pos` on are `data`, and bytes outside that range that could
be read before are as they were.  A hole in which the data start is filled with
zeros. -/
structure Wrote (v v' : Contents) (pos : Nat) (data : List UInt8) : Prop where
  inside : ∀ k < data.length, byteAt v' (pos + k) = data[k]?
  outside : ∀ p c, p < pos ∨ pos + data.length ≤ p → byteAt v p = some c → byteAt v' p = some c
  filled : data ≠ [] → v (pos / 4096) = .ok none →
    ∀ p < pos, p / 4096 = pos / 4096 → byteAt v' p = some 0

theorem Wrote.nil (v : Contents) (pos : Nat) : Wrote v v pos [] :=
  ⟨fun _ hk => absurd hk (Nat.not_lt_zero _), fun _ _ _ h => h, fun h => absurd rfl h⟩

theorem Wrote.append {v v' v'' : Contents} {pos : Nat} {a b : List UInt8}
    (hne : a ≠ []) (ha : Wrote v v' pos a)
    (hb : Wrote v' v'' (pos + a.length) b) : Wrote v v'' pos (a ++ b) where
  inside k hk := by
    rw [List.length_append] at hk
    by_cases hka : k < a.length
    · have hbyte := ha.inside k hka
      rw [List.getElem?_append_left hka, ← hbyte]
      rw [List.getElem?_eq_getElem hka] at hbyte
      rw [hbyte]
      exact hb.outside (pos + k) _ (by omega) hbyte
    · rw [List.getElem?_append_right (by omega), ← hb.inside _ (by omega)]
      congr 1
      omega
  outside p c hp hc := by
    rw [List.length_append] at hp
    exact hb.outside p c (by omega) (ha.outside p c (by omega) hc)
  filled _ hnone p hp hdiv :=
    hb.outside p 0 (by omega) (ha.filled hne hnone p hp hdiv)

theorem wrote_of_splice {v v' : Contents} {pos : Nat} {buf image : Block}
    (himage : image = buf.splice (pos % 4096)
      (min (4096 - pos % 4096) rest.length) fun k => rest.getD k 0)
    (hzero : v (pos / 4096) = .ok none → buf = zero)
    (hbuf : ∀ b, v (pos / 4096) = .ok (some b) → 0 < pos % 4096 ∨ rest.length < 4096 → buf = b)
    (hv : ∀ k, v' k = if k = pos / 4096 then .ok (some image) else v k) :
    Wrote v v' pos (rest.take (min (4096 - pos % 4096) rest.length)) where
  inside k hk := by
    rw [List.length_take] at hk
    have hdiv : (pos + k) / 4096 = pos / 4096 := by omega
    have hmod : (pos + k) % 4096 = pos % 4096 + k := by omega
    have hk' : k < rest.length := by omega
    rw [byteAt_of_contents (b := image) (by rw [hv, if_pos hdiv]), hmod, himage,
      get_splice_inside _ _ (by omega) (by omega),
      List.getElem?_take_of_lt (by omega), List.getD_eq_getElem?_getD,
      List.getElem?_eq_getElem hk', Option.getD_some]
  outside p c hp hc := by
    rw [List.length_take] at hp
    obtain ⟨b, hb, hget⟩ := exists_of_byteAt hc
    by_cases hdiv : p / 4096 = pos / 4096
    · rw [byteAt_of_contents (b := image) (by rw [hv, if_pos hdiv]), himage,
        get_splice_outside _ _ (by omega),
        hbuf b (hdiv ▸ hb) (by omega), hget]
    · rw [byteAt_of_contents (b := b) (by rw [hv, if_neg hdiv, hb]), hget]
  filled _ hnone p hp hdiv := by
    rw [byteAt_of_contents (b := image) (by rw [hv, if_pos hdiv]), himage,
      get_splice_outside _ _ (by omega), hzero hnone, get_zero]

theorem Rewrites.reserved (h : Rewrites L n fs.device fs'.device x x')
    (hx : Exclusive (tree L fs.device x) (InUse fs.device))
    (hres : Reserved fs) (hgeo : SameGeometry fs fs') : Reserved fs' := by
  intro b hb hfirst
  rw [hgeo.firstDataBlock] at hfirst
  refine h.marks b (hres b hb hfirst) fun s hs heq => ?_
  have huse := (hx.used hs).1
  rw [heq] at huse
  omega

theorem writeLoop_spec {fuel pos : Nat} (hfuel : rest.length ≤ fuel)
    (hres : Reserved fs) (hx : Exclusive (tree L fs.device x) (InUse fs.device))
    (hmode : x.mode ≠ inodeModeDir)
    (h : (writeLoop fuel x pos rest).run fs = (.ok x', fs')) :
    Rewrites L fs.sb.totalBlocks.toNat fs.device fs'.device x x' ∧
      SameGeometry fs fs' ∧ x'.size = x.size ∧
      (pos + rest.length ≤ 2 ^ 32 →
        Wrote (contents fs.device x) (contents fs'.device x') pos rest) := by
  induction fuel generalizing x pos rest fs with
  | zero =>
    simp only [writeLoop, run_pure, Prod.mk.injEq, Except.ok.injEq] at h
    obtain ⟨rfl, rfl⟩ := h
    obtain rfl : rest = [] := List.length_eq_zero_iff.mp (by omega)
    exact ⟨Rewrites.refl hx, refl fs, rfl, fun _ => Wrote.nil _ _⟩
  | succ fuel ih =>
    rw [writeLoop] at h
    by_cases hrest : rest = []
    · subst hrest
      simp only [↓reduceIte, run_pure, Prod.mk.injEq, Except.ok.injEq] at h
      obtain ⟨rfl, rfl⟩ := h
      exact ⟨Rewrites.refl hx, refl fs, rfl,
      fun _ => Wrote.nil _ _⟩
    · rw [if_neg hrest, run_bind_eq_ok_iff] at h
      obtain ⟨x1, fs1, hround, h⟩ := h
      have hlen : 0 < rest.length := List.length_pos_iff.mpr hrest
      obtain ⟨hrew, hgeo, hsize, buf, image, himage, hzero, hbuf, hcontents⟩ :=
        writeRound_spec hres hx hmode hround
      obtain ⟨hrew', hgeo', hsize', hwrote'⟩ := ih
        (by rw [List.length_drop]; omega) (hrew.reserved hx hres hgeo)
        hrew.exclusive (hrew.mode ▸ hmode) h
      rw [hgeo.totalBlocks] at hrew'
      refine ⟨hrew.trans hrew', hgeo.trans hgeo', hsize'.trans hsize, fun hmax => ?_⟩
      rw [logicalOf_of_lt (by omega)] at hzero hbuf hcontents
      have hwrote := wrote_of_splice himage hzero hbuf hcontents
      have htake : rest.take (min (4096 - pos % 4096) rest.length) ≠ [] := by
        rw [← List.length_pos_iff, List.length_take]
        omega
      have happend := hwrote.append htake (b := rest.drop (min (4096 - pos % 4096) rest.length)) (by
          rw [List.length_take, Nat.min_eq_left (by omega)]
          exact hwrote' (by rw [List.length_drop]; omega))
      rwa [List.take_append_drop] at happend

end ZiqaKernel
