/-
`unlink`: taking a directory entry out and, with the last link, freeing the
blocks and the inode it named.
-/
import ZiqaKernel.ZiqaFsSound

namespace ZiqaKernel

open Fallible Spec Function Slot Disk

variable {fs s : ZiqaFs} {x y : Inode} {id b : UInt32} {t : Slot} {I : ZiqaFs → Prop}

/-- From `fs` to `s` at most blocks of the file `x` have been freed. -/
structure Drained (x : Inode) (fs s : ZiqaFs) : Prop where
  geometry : SameGeometry fs s
  sectors : s.device.totalSectors = fs.device.totalSectors
  upper : ∀ b, marked s.device b → marked fs.device b
  marks : ∀ b, marked fs.device b → Unreferenced wordLayout fs.device x b → marked s.device b
  keeps : ∀ b, b ≠ bitmapBlock → s.device.block b = fs.device.block b

theorem Drained.refl (x : Inode) (fs : ZiqaFs) : Drained x fs fs :=
  ⟨SameGeometry.refl fs, rfl, fun _ h => h, fun _ h _ => h, fun _ _ => rfl⟩

theorem Drained.healthy (h : Drained x fs s) (hh : Healthy fs) : Healthy s :=
  hh.step h.geometry h.sectors fun b hb => Or.inl (h.upper b hb)

/-- Blocks of the file `x` have been freed, each of them once: those at the slots `todo`
are still marked. -/
structure Pending (I : ZiqaFs → Prop) (x : Inode) (fs : ZiqaFs) (todo : Slot → Prop)
    (s : ZiqaFs) : Prop where
  drained : Drained x fs s
  holds : I s
  marks : ∀ u, todo u → wordLayout.counts x.mode u = true → refAt fs.device x u ≠ 0 →
    marked s.device (refAt fs.device x u)

/-- In the double-indirect block, `free_inode_blocks` takes every word for the number of
a pointer block.  All the words that are set have to be references of the file. -/
def LevelsCount (d : Disk) (x : Inode) : Prop :=
  ∀ w, refAt d x (.level1 w) ≠ 0 → wordLayout.counts x.mode (.level1 w) = true

theorem LevelsCount.of_dir {d : Disk} (h : x.mode = inodeModeDir) : LevelsCount d x :=
  fun _ _ => counts_dir h _

theorem LevelsCount.of_zero {d : Disk} (h : x.doubleIndirect = 0) : LevelsCount d x :=
  fun w hne => absurd (by rw [refAt, h, wordOf_zero]) hne

/-- The word of the double-indirect block that a slot lies behind. -/
def Slot.levelWord : Slot → Option Nat
  | .level1 w | .level2 w _ => some w
  | _ => none

section

variable {todo base : Slot → Prop} (hh : Healthy fs) (hx : OwnTree fs x)

theorem Pending.mono {todo' : Slot → Prop} (h : Pending I x fs todo s)
    (hle : ∀ u, todo' u → todo u) : Pending I x fs todo' s :=
  ⟨h.drained, h.holds, fun u hu => h.marks u (hle u hu)⟩

include hx in
theorem Pending.start (hI : I fs) : Pending I x fs todo fs :=
  ⟨Drained.refl x fs, hI, fun _ _ hcounts hne => (hx.inUse_refAt hcounts hne).2⟩

include hh in
theorem spec_readPending (hb : InUse fs.device b) :
    Spec (Pending I x fs todo) (readBlock b)
      (fun buf s => Pending I x fs todo s ∧ buf = fs.device.block b) (fun _ _ => False) := by
  refine pointwise fun s hs => ?_
  have hrange : s.device.InRange b :=
    (inRange_congr hs.drained.sectors b).mpr (hh.inRange_of_inUse hb)
  exact of_run_ok (readBlock_run_ok hrange) ⟨hs, hs.drained.keeps b hb.ne_bitmapBlock⟩

variable [Steady I]

include hh hx

theorem freeDataBlock_pending (todo base : Slot → Prop)
    (ht : wordLayout.counts x.mode t = true) (hne : refAt fs.device x t ≠ 0)
    (htodo : todo t) (hbase : ∀ u, base u → todo u ∧ u ≠ t) :
    Spec (Pending I x fs todo) (freeDataBlock (refAt fs.device x t))
      (fun _ => Pending I x fs base) (fun _ _ => False) := by
  refine pointwise fun s ⟨hs, hI, hmarks⟩ => ?_
  have huse : InUse s.device (refAt fs.device x t) :=
    ⟨(hx.inUse_refAt ht hne).1, hmarks t htodo ht hne⟩
  have hhs := hs.healthy hh
  have hrun := freeDataBlock_run hhs (hhs.freeable huse)
  have hholds := Steady.free hI hhs huse
  rw [hrun] at hholds
  have hclear := marked_clearBitmapBit s.device (marked_lt huse.2)
  refine of_run_ok hrun ⟨⟨⟨hs.geometry.firstDataBlock, hs.geometry.totalBlocks⟩,
    hs.sectors, fun c hc => ?_, fun c hc href => ?_, fun c hc => ?_⟩, hholds,
    fun u hu hcounts hneu => ?_⟩
  · exact hs.upper c ((hclear c).mp hc).1
  · refine (hclear c).mpr ⟨hs.marks c hc href, ?_⟩
    rintro rfl
    rw [← tree_of_counts ht] at hne
    exact href t hne (tree_of_counts ht)
  · rw [block_setBlock_ne _ _ hc]
    exact hs.keeps c hc
  · obtain ⟨hu', hut⟩ := hbase u hu
    exact (hclear _).mpr ⟨hmarks u hu' hcounts hneu, hx.refAt_ne hcounts ht hneu hut⟩

theorem freeFamily_pending {ι : Type} (slot : ι → Slot) (block : ι → UInt32)
    (base : Slot → Prop) (items : List ι) (hnodup : items.Nodup) (hinj : Injective slot)
    (hslot : ∀ i, wordLayout.counts x.mode (slot i) = true)
    (hblock : ∀ i, refAt fs.device x (slot i) = block i)
    (hbase : ∀ i, ¬ base (slot i)) :
    Spec (Pending I x fs fun u => base u ∨ ∃ i ∈ items, u = slot i)
      (items.forM fun i => freeIfSet (block i)) (fun _ => Pending I x fs base)
      (fun _ _ => False) := by
  refine (forM_pending (I := fun rest =>
    Pending I x fs fun u => base u ∨ ∃ i ∈ rest, u = slot i) items fun i rest hsuffix =>
      ?_).consequence (fun _ h => h) (fun _ _ h => h.mono fun u hu => Or.inl hu)
        fun _ _ h => h
  have hfresh : i ∉ rest := (List.nodup_cons.mp (hnodup.sublist hsuffix.sublist)).1
  have hleft : ∀ u, (base u ∨ ∃ j ∈ rest, u = slot j) →
      (base u ∨ ∃ j ∈ i :: rest, u = slot j) ∧ u ≠ slot i := by
    rintro u (hu | ⟨j, hj, rfl⟩)
    · refine ⟨Or.inl hu, ?_⟩
      rintro rfl
      exact hbase i hu
    · refine ⟨Or.inr ⟨j, List.mem_cons_of_mem i hj, rfl⟩, fun heq => hfresh ?_⟩
      rwa [← hinj heq]
  rw [← hblock i]
  exact ite (fun hne => freeDataBlock_pending hh hx _ _ (hslot i) hne
    (Or.inr ⟨i, List.mem_cons_self, rfl⟩) hleft)
    fun _ => pure fun _ h => h.mono fun u hu => (hleft u hu).1

theorem freePointer_pending {p : UInt32} (slot : Nat → Slot) (base : Slot → Prop)
    (ht : wordLayout.counts x.mode t = true) (hp : refAt fs.device x t = p) (hne : p ≠ 0)
    (hinj : Injective slot)
    (hslot : ∀ w, wordLayout.counts x.mode (slot w) = true)
    (hword : ∀ w, refAt fs.device x (slot w) = (fs.device.block p).word w)
    (hbase : ∀ w, ¬ base (slot w)) (hbaset : ¬ base t) (hother : ∀ w, t ≠ slot w) :
    Spec (Pending I x fs fun u => base u ∨ u = t ∨ ∃ w, u = slot w)
      (do
        let buf ← readBlock p
        freeWords buf
        freeDataBlock p : FsM Unit)
      (fun _ => Pending I x fs base) (fun _ _ => False) := by
  subst hp
  refine (spec_readPending hh (hx.inUse_refAt ht hne)).bind fun buf => assume fun hbuf => ?_
  subst hbuf
  unfold freeWords
  have hwords := freeFamily_pending (I := I) hh hx slot _ (fun u => base u ∨ u = t)
    (List.range 1024) List.nodup_range hinj hslot hword
    fun w hw => hw.elim (hbase w) fun heq => hother w heq.symm
  have hstart : ∀ u, (base u ∨ u = t) ∨ (∃ w ∈ List.range 1024, u = slot w) →
      base u ∨ u = t ∨ ∃ w, u = slot w := by
    rintro u ((hu | hu) | ⟨w, -, hu⟩)
    · exact Or.inl hu
    · exact Or.inr (Or.inl hu)
    · exact Or.inr (Or.inr ⟨w, hu⟩)
  refine (hwords.pre fun s hs => hs.mono hstart).bind fun _ => ?_
  refine freeDataBlock_pending hh hx (fun u => base u ∨ u = t) base ht hne
    (Or.inr rfl) fun u hu => ⟨Or.inl hu, ?_⟩
  rintro rfl
  exact hbaset hu

theorem freeDouble_pending (hlevels : LevelsCount fs.device x) :
    Spec (Pending I x fs fun u => u = .double ∨ u.levelWord.isSome) (freeDouble x)
      (fun _ => Pending I x fs fun _ => False) (fun _ _ => False) := by
  refine ite (fun hdbl => ?_) fun _ => pure fun _ h => h.mono fun _ => False.elim
  refine (spec_readPending hh (hx.inUse_refAt (s := .double) rfl hdbl)).bind fun buf =>
    assume fun hbuf => ?_
  subst hbuf
  -- What is left to do before word `w`: the tables from `w` on and what they name.
  refine bind (Q := fun _ => Pending I x fs (· = .double)) ?_ fun _ =>
    freeDataBlock_pending (t := .double) hh hx _ _ rfl hdbl rfl fun _ h => h.elim
  refine (forM_pending (I := fun rest => Pending I x fs fun u => u = .double ∨
    ∃ w ∈ rest, u.levelWord = some w) (List.range 1024) fun w rest hsuffix =>
      ?_).consequence (fun s hs => hs.mono ?_) (fun _ _ h => h.mono fun u hu => Or.inl hu)
      fun _ _ h => h
  · have hfresh : w ∉ rest :=
      (List.nodup_cons.mp (List.nodup_range.sublist hsuffix.sublist)).1
    have hlevel : refAt fs.device x (.level1 w) =
        (fs.device.block x.doubleIndirect).word w := wordOf_of_ne hdbl w
    refine ite (fun hne => ?_) fun _ => pure fun _ h => h.mono fun u hu =>
      hu.imp_right fun ⟨w', hw', hu⟩ => ⟨w', List.mem_cons_of_mem w hw', hu⟩
    have hcounts := hlevels w (hlevel ▸ hne)
    refine (freePointer_pending (t := .level1 w) hh hx (.level2 w)
      (fun u => u = .double ∨ ∃ w' ∈ rest, u.levelWord = some w') hcounts hlevel hne
      (fun v v' heq => (level2.inj heq).2) (fun v => hcounts) (fun v => ?_)
      (fun v => by simpa [levelWord] using hfresh)
      (by simpa [levelWord] using hfresh) fun v => by simp).pre
        fun s hs => hs.mono fun u hu => ?_
    · change fs.device.wordOf (refAt fs.device x (.level1 w)) v = _
      rw [hlevel]
      exact wordOf_of_ne hne v
    · rcases hu with (hu | ⟨w', hw', hu⟩) | rfl | ⟨v, rfl⟩
      · exact Or.inl hu
      · exact Or.inr ⟨w', List.mem_cons_of_mem w hw', hu⟩
      · exact Or.inr ⟨w, List.mem_cons_self, rfl⟩
      · exact Or.inr ⟨w, List.mem_cons_self, rfl⟩
  · rintro u (hu | ⟨w, -, hu⟩)
    · exact Or.inl hu
    · exact Or.inr (Option.isSome_of_mem hu)

/-- `free_inode_blocks` frees every block of the file once and no other block, and it
does not fail unless the file is a regular one with a double-indirect block, whose
checksum words it would take for block numbers. -/
theorem freeInodeBlocks_spec (hI : I fs) (hlevels : LevelsCount fs.device x) :
    Spec (· = fs) (freeInodeBlocks x) (fun _ => Pending I x fs fun _ => False)
      (fun _ _ => False) := by
  have hdirect := freeFamily_pending (I := I) hh hx .direct x.blocks
    (fun u => ∀ i, u ≠ .direct i) (List.finRange 10)
    (List.nodup_finRange 10) (fun i j heq => direct.inj heq) (fun _ => rfl)
    (fun _ => rfl) fun i hi => hi i rfl
  refine (hdirect.pre fun s hs => hs ▸ Pending.start (hs ▸ hx) (hs ▸ hI)).bind fun _ => ?_
  refine bind (Q := fun _ => Pending I x fs fun u => u = .double ∨ u.levelWord.isSome)
    ?_ fun _ => freeDouble_pending hh hx hlevels
  refine ite (fun hind => ?_) fun _ => pure fun _ h => h.mono fun u hu i => ?_
  · refine (freePointer_pending (t := .indirect) hh hx .single
      (fun u => u = .double ∨ u.levelWord.isSome)
      rfl rfl hind (fun v v' heq => single.inj heq) (fun _ => rfl)
      (fun w => wordOf_of_ne hind w) (fun w => by simp [levelWord])
      (by simp [levelWord]) fun w => by simp).pre fun s hs => hs.mono fun u hu i => ?_
    rintro rfl
    simp [levelWord] at hu
  · rintro rfl
    simp [levelWord] at hu

end

theorem u32At_zero (off : Nat) : u32At (fun _ => 0) off = 0 := by
  refine u32At_eq fun k hk => ?_
  interval_cases k <;> rfl

theorem refAt_zeroInode (d : Disk) (t : Slot) : refAt d (Inode.ofBytes fun _ => 0) t = 0 :=
  refAt_eq_zero (fun i => u32At_zero (28 + 4 * i)) (u32At_zero 108) (u32At_zero 112) t

theorem slotInode_setSlot_zero (table : Block) (hfit : SlotFits id) :
    slotInode (setSlot table id fun _ => 0) id = Inode.ofBytes fun _ => 0 :=
  Inode.ofBytes_congr fun _ hk => Image.get_splice_inside _ _ hk hfit

theorem freeInode_run (hid : ¬ id ≥ inodeCount) (hfit : SlotFits id)
    (hrange : fs.device.InRange inodeTableBlock) :
    (freeInode id).run fs = (.ok (), {
      device := fs.device.withSlot id fun _ => 0
      sb := { fs.sb with freeInodes := succ32 fs.sb.freeInodes } }) := by
  rw [freeInode, if_neg hid, run_bind_of_ok (readBlock_run_ok hrange),
    if_pos hfit, run_bind_of_ok (writeBlock_run_ok hrange _), run_modify]
  rfl

variable [Steady I]

theorem freeInode_spec (hI : I fs) (hh : Healthy fs) (hx : liveInode fs.device id = some x)
    (howned : Owned wordLayout fs.device (update (liveInode fs.device) id none)) :
    Spec (· = fs) (freeInode id) (fun _ => SoundIn I) (fun _ _ => False) := by
  obtain ⟨hid, hfit, hrange, -, -⟩ := loadInode_eq_ok_iff.mp (liveInode_eq_some_iff.mp hx)
  have hrun := freeInode_run hid hfit hrange
  have hlive : (liveInode fs.device id).isSome = true := by
    rw [hx]
    rfl
  have hholds := Steady.release hI hlive
  rw [hrun] at hholds
  have hsound : Sound { fs with device := fs.device.withSlot id fun _ => 0 } := by
    refine Sound.withSlot hh ?_
    have hempty := howned.update_empty id
      (liveInode (fs.device.withSlot id fun _ => 0) id) fun z hz t => by
        obtain ⟨-, -, -, hslot, -⟩ :=
          loadInode_eq_ok_iff.mp (liveInode_eq_some_iff.mp hz)
        rw [hslot, withSlot, block_setBlock_self, slotInode_setSlot_zero _ hfit]
        exact refAt_zeroInode _ t
    rwa [update_idem] at hempty
  exact of_run_ok hrun ⟨hsound.congr rfl ⟨rfl, rfl⟩, hholds⟩

omit [Steady I] in
theorem Drained.liveInode_eq (h : Drained x fs s) : liveInode s.device = liveInode fs.device := by
  funext j
  unfold liveInode
  rw [loadInode_congr h.sectors (h.keeps _ (by decide))]

theorem Drained.owned (h : Drained x fs s) (hs : Sound fs) (hx : liveInode fs.device id = some x) :
    Owned wordLayout s.device (update (liveInode s.device) id none) := by
  have hlive := h.liveInode_eq
  have hrefs : ∀ p, refs wordLayout s.device
      (update (liveInode s.device) id none) p ≠ 0 → p.1 ≠ id ∧ refs wordLayout s.device
          (update (liveInode s.device) id none) p =
          refs wordLayout fs.device (liveInode fs.device) p := by
    intro p hp
    rw [hlive] at hp ⊢
    unfold refs at hp ⊢
    by_cases hid : p.1 = id
    · rw [hid, update_self] at hp
      exact absurd rfl hp
    · rw [update_of_ne hid]
      refine ⟨hid, ?_⟩
      cases hz : liveInode fs.device p.1 with
      | none => rfl
      | some z =>
        have hsame : SameTree wordLayout fs.device s.device z :=
          ⟨h.sectors, fun t ht => h.keeps _ ((hs.ownTree hz).used ht).ne_bitmapBlock⟩
        simp only [hsame.tree_eq]
  refine hs.owned.restrict (fun p hp => (hrefs p hp).2) fun p hp => ?_
  obtain ⟨hid, heq⟩ := hrefs p hp
  rw [heq] at hp ⊢
  have huse := hs.owned.used hp
  refine ⟨huse.1, h.marks _ huse.2 ?_⟩
  cases hz : liveInode fs.device p.1 with
  | none => simp [refs, hz] at hp
  | some z =>
    rw [← Prod.mk.eta (p := p), refs_of_some hz]
    exact hs.owned.unreferenced hx hz hid p.2

/-- Some block of the directory has an entry `name` for inode `t`. -/
def EntryOf (d : Disk) (dir : Inode) (name : Name) (t : UInt32) : Prop :=
  ∃ l < blocksFor dir.size.toNat, ∃ p, blockMap d dir l = .ok p ∧ p.1 ≠ 0 ∧
    (t, name) ∈ direntForeach (d.block p.1) 4096

theorem findEntry_some {buf : Block} {size : Nat} {name : Name} {t : UInt32}
    (h : findEntry buf size name = some t) :
    (t, name) ∈ direntForeach buf size := by
  unfold findEntry at h
  -- whatever the loop has found so far, a later match replaces it
  have hfold : ∀ (entries : List (UInt32 × Name)) (found : Option UInt32),
      entries.foldl (fun result entry =>
        if entry.2 = name then some entry.1 else result) found = some t →
      found = some t ∨ (t, name) ∈ entries := by
    intro entries
    induction entries with
    | nil => exact fun found h => Or.inl h
    | cons entry rest ih =>
      intro found h
      rcases ih _ h with hfound | hmem
      · dsimp only at hfound
        split_ifs at hfound with hname
        · rw [Option.some.injEq] at hfound
          refine Or.inr (List.mem_cons.mpr (Or.inl ?_))
          rw [← hname, ← hfound]
        · exact Or.inl hfound
      · exact Or.inr (List.mem_cons_of_mem _ hmem)
  rcases hfold _ _ h with hnone | hmem
  · cases hnone
  · exact hmem

/-- What the search loop of `unlink` has found so far. -/
structure UnlinkScan.Found (d : Disk) (dir : Inode) (name : Name) (scan : UnlinkScan) : Prop where
  last : scan.lastPhys ≠ 0 → scan.lastBuf = d.block scan.lastPhys
  entry : ∀ t, scan.targetId = some t → EntryOf d dir name t
  block : ∀ t, scan.targetId = some t → ∃ l p, blockMap d dir l = .ok p ∧
    p.1 ≠ 0 ∧ p.1 = scan.foundPhys

theorem cachedBlock_spec {scan : UnlinkScan} {P : ZiqaFs → Prop} : Spec P (cachedBlock scan b)
      (fun buf s => P s ∧ ((scan.lastPhys ≠ 0 → scan.lastBuf = s.device.block scan.lastPhys) →
          b ≠ 0 → buf = s.device.block b))
      (fun _ => P) := by
  refine ite (fun _ => ?_) fun hsame => pure fun s hs => ⟨hs, ?_⟩
  · exact spec_readBlock.consequence (fun _ h => h) (fun _ _ h => ⟨h.1, fun _ _ => h.2⟩)
      (fun _ _ h => h)
  · intro hlast hne
    rw [not_not.mp hsame] at hne ⊢
    exact hlast hne

theorem unlinkScanRound_spec {dir : Inode} {name : Name} {scan : UnlinkScan}
    {l : Nat} (hl : l < blocksFor dir.size.toNat) :
    Spec (fun s => s = fs ∧ scan.Found fs.device dir name) (unlinkScanRound dir name scan l)
      (fun scan' s => s = fs ∧ scan'.Found fs.device dir name)
      (fun _ s => s = fs) := by
  refine assume fun hscan => ?_
  refine inodeGetBlock_spec.bind fun ⟨phys, sum⟩ => ?_
  refine pointwise fun s ⟨hs, hmap⟩ => ?_
  subst hs
  refine ite (fun _ => pure fun s1 h => ⟨h, hscan⟩) fun hphys => ?_
  refine cachedBlock_spec.bind fun buf => ?_
  refine pointwise fun s1 ⟨hs1, hbuf⟩ => ?_
  subst hs1
  have hbuf' := hbuf hscan.last hphys
  cases hfind : findEntry buf 4096 name with
  | none =>
    exact pure fun s2 h => ⟨h, fun _ => hbuf', hscan.entry, hscan.block⟩
  | some t =>
    refine pure fun s2 h => ⟨h, fun _ => hbuf', fun t' ht => ?_,
      fun t' _ => ⟨l, _, hmap, hphys, rfl⟩⟩
    rw [Option.some.injEq] at ht
    subst ht
    exact ⟨l, hl, _, hmap, hphys, hbuf' ▸ findEntry_some hfind⟩

theorem unlinkScan_spec (fs : ZiqaFs) (dir : Inode) (name : Name) : Spec (· = fs)
      ((List.range (blocksFor dir.size.toNat)).foldlM (unlinkScanRound dir name)
        { targetId := none, foundPhys := 0, lastPhys := 0, lastBuf := Image.zero })
      (fun scan s => s = fs ∧ scan.Found fs.device dir name) (fun _ s => s = fs) := by
  have hnone : UnlinkScan.Found fs.device dir name
      { targetId := none, foundPhys := 0, lastPhys := 0, lastBuf := Image.zero } :=
    ⟨fun h => absurd rfl h, fun _ h => (nomatch h), fun _ h => (nomatch h)⟩
  refine (foldlM (I := fun scan s => s = fs ∧
    scan.Found fs.device dir name) _ (fun scan l hl => ?_) _).consequence
      (fun _ h => ⟨h, hnone⟩) (fun _ _ h => h) (fun _ _ h => h)
  exact unlinkScanRound_spec (List.mem_range.mp hl)

/-- `unlink` keeps a volume in order unless it removes the last link to a
regular file that has a double-indirect block. -/
def UnlinkSafe (d : Disk) (parentId : UInt32) (name : Name) : Prop :=
  ∀ parent t x, liveInode d parentId = some parent → EntryOf d parent name t →
    liveInode d t = some x → pred16 x.nlink = 0 →
    x.mode = inodeModeDir ∨ x.doubleIndirect = 0

theorem freeInodeBlocks_congr (h : y.SameRefs x) : freeInodeBlocks y = freeInodeBlocks x := by
  unfold freeInodeBlocks freeSingle freeDouble
  rw [h.blocks, h.indirect, h.double]

theorem dropLink_spec {target : Inode} (hs : SoundIn I fs)
    (hx : liveInode fs.device id = some x) (hy : target.SameRefs x)
    (hsafe : target.nlink = 0 → x.mode = inodeModeDir ∨ x.doubleIndirect = 0) :
    Spec (· = fs) (dropLink id target) (fun _ => SoundIn I) (fun _ => SoundIn I) := by
  have hown := hs.ownTree hx
  refine ite (fun hlast => ?_) fun _ => ?_
  · rw [freeInodeBlocks_congr hy]
    have hlevels : LevelsCount fs.device x :=
      (hsafe hlast).elim LevelsCount.of_dir LevelsCount.of_zero
    refine (freeInodeBlocks_spec hs.healthy hown hs.holds hlevels).andThen
      (fun _ _ h => h.elim) fun _ => ?_
    refine pointwise fun s ⟨hdrained, hI, _⟩ => ?_
    exact (freeInode_spec hI (hdrained.healthy hs.healthy) (hdrained.liveInode_eq ▸ hx)
      (hdrained.owned hs.toSound hx)).consequence (fun _ h => h) (fun _ _ h => h)
      (fun _ _ h => h.elim)
  · exact (writeInode_spec hs.toSound hx (.refl hown hs.holds) hy).consequence
      (fun _ h => h) (fun _ _ h => h.1) (fun _ _ h => h.elim)

theorem unlink_spec {now parentId : UInt32} {name : Name} (hs : SoundIn I fs)
    (hsafe : UnlinkSafe fs.device parentId name) :
    Spec (· = fs) (unlink now parentId name) (fun _ => SoundIn I) (fun _ => SoundIn I) := by
  have herror : ∀ (e : Failure) (s : ZiqaFs), s = fs → SoundIn I s :=
    fun _ _ h => h ▸ hs
  refine readInode_spec.andThen herror fun parent => ?_
  refine pointwise fun s ⟨hfs, hparent⟩ => ?_
  subst hfs
  refine (unlinkScan_spec s parent name).andThen herror fun scan => ?_
  refine assume fun hscan => ?_
  refine (ofOption (E := fun _ => SoundIn I) (herror .fault)).bind fun t => ?_
  refine assume fun ht => ?_
  obtain ⟨l, p, hmap, hne, hfound⟩ := hscan.block t ht
  refine readInode_spec.andThen herror fun x => ?_
  refine pointwise fun s' ⟨hfs, hx⟩ => ?_
  subst hfs
  refine cachedBlock_spec.andThen herror fun buf => ?_
  refine pointwise fun s' ⟨hfs, _⟩ => ?_
  subst hfs
  have hdata : DataBlockOf s' parent scan.foundPhys :=
    hfound ▸ DataBlockOf.of_blockMap hmap hne
  refine (writeData_spec hs.holds (hs.ownTree hparent) hdata _).andThen
    (fun _ _ h => hs.of_kept hparent h) fun _ => ?_
  refine bind (Q := fun _ => SoundIn I) ?_ fun _ => flushSuperblock_spec
  refine pointwise fun s1 hkept => ?_
  have hx1 : liveInode s1.device t = some x := by
    rw [hkept.liveInode_eq (hs.ownTree hparent), hx]
  exact dropLink_spec (hs.of_kept hparent hkept) hx1 ⟨rfl, rfl, rfl, rfl⟩
    fun hlast => hsafe parent t x hparent (hscan.entry t ht) hx hlast

end ZiqaKernel
