/-
The calls that add directory entries, and `truncate`, on volumes in order.
Whatever a call returns, the volume stays in order.
-/
import ZiqaKernel.ZiqaFsSound

namespace ZiqaKernel

open Fallible (Spec)

variable {fs : ZiqaFs} {x dir parent : Inode} {id parentId newId now : UInt32} {name newName : Name}
  {I : ZiqaFs → Prop}

/-- The inode number that `alloc_inode` takes. -/
def nextInode (d : Disk) : Option UInt32 :=
  (inodeFindFree (d.block inodeTableBlock) inodeCount.toNat 136 1).map UInt32.ofNat

/-- The calls that create an inode keep `I` when taking the slot for it does. -/
def TakesSlot (I : ZiqaFs → Prop) (fs : ZiqaFs) : Prop :=
  ∀ s id y, SlotTaken fs s id y → I s

theorem allocInode_taken {mode : UInt16} (hs : SoundIn I fs) (htake : TakesSlot I fs) :
    Spec (· = fs) (allocInode mode now) (fun id s => (SoundIn I s ∧ liveInode s.device =
        Function.update (liveInode fs.device) id (some (freshInode mode now).stamped)) ∧
        nextInode fs.device = some id)
      (fun _ => SoundIn I) := by
  refine ((allocInode_spec hs.toSound).and (allocInode_exact hs.healthy)).consequence
    (fun _ h => h) (fun id s h => ?_) fun _ _ h => h.2 ▸ hs
  refine ⟨⟨⟨h.1.1, htake _ _ _ h.2⟩, h.1.2⟩, ?_⟩
  rw [nextInode, h.2.found, Option.map_some, UInt32.ofNat_toNat]

variable [Steady I]

theorem lookupInDir_spec {P : ZiqaFs → Prop} :
    Spec P (lookupInDir dir name) (fun _ => P) (fun _ => P) := by
  unfold lookupInDir
  generalize List.range (blocksFor dir.size.toNat) = logicals
  induction logicals with
  | nil => exact Spec.pure fun _ h => h
  | cons l rest ih =>
    refine inodeGetBlock_spec.bind fun ⟨phys, sum⟩ => ?_
    refine Spec.pre (fun _ h => h.1) ?_
    refine Spec.ite (fun _ => ih) fun _ => ?_
    refine spec_readBlock.bind fun buf => ?_
    refine Spec.pre (fun _ h => h.1) ?_
    cases findEntry buf 4096 name with
    | none => exact ih
    | some t => exact Spec.pure fun _ h => h

theorem addToExisting_exact (logicals : List Nat) :
    Spec (· = fs) (addToExisting parent newId name logicals)
      (fun added s => if added then BlockEdited fs s parent
        (fun buf buf' => writeEntryRaw buf newId name = .ok buf') else s = fs)
      (fun _ s => s = fs) := by
  induction logicals with
  | nil => exact Spec.pure fun _ h => h
  | cons l rest ih =>
    refine inodeGetBlock_spec.bind fun ⟨phys, sum⟩ => ?_
    refine Spec.pointwise fun s ⟨hs, hmap⟩ => ?_
    subst hs
    refine Spec.ite (fun _ => ih) fun hphys => ?_
    refine spec_readBlock.bind fun buf => ?_
    refine Spec.pointwise fun s' ⟨hs', hbuf⟩ => ?_
    subst hs'
    cases hwrite : writeEntryRaw buf newId name with
    | error e => exact ih
    | ok buf' =>
      exact (spec_editBlock (R := fun buf buf' => writeEntryRaw buf newId name =
        .ok buf') hmap hphys (hbuf ▸ hwrite)).bind fun _ => Spec.pure fun _ h => h

theorem addToExisting_spec (hI : I fs) (hx : OwnTree fs parent) (logicals : List Nat) :
    Spec (· = fs) (addToExisting parent newId name logicals)
      (fun _ s => KeptIn I fs s parent parent) (fun _ s => KeptIn I fs s parent parent) := by
  refine (addToExisting_exact logicals).consequence (fun _ h => h) (fun added s h => ?_)
    (fun _ _ h => .of_eq hI hx h)
  split_ifs at h
  · exact h.kept hI hx
  · exact .of_eq hI hx h

/-- Directories can grow; a regular file that is used as one must stay within
the words of its indirect block. -/
def DirRoom (d : Disk) (id : UInt32) : Prop :=
  ∀ x, liveInode d id = some x → x.mode = inodeModeDir ∨ blocksFor x.size.toNat < 1034

def HoldsEntry (d : Disk) (id : UInt32) : Prop :=
  ∃ y, liveInode d id = some y ∧ y.size = 4096 ∧ y.blocks 0 ≠ 0

theorem inodeAllocBlock_first {r : UInt32 × Inode} {fs' : ZiqaFs}
    (hres : Reserved fs) (h : (inodeAllocBlock x 0).run fs = (.ok r, fs')) :
    r.2.blocks 0 ≠ 0 := by
  rw [inodeAllocBlock, dif_pos (by decide), Fallible.run_bind_eq_ok_iff] at h
  obtain ⟨b, fs1, halloc, h⟩ := h
  obtain ⟨hprov, -⟩ := orAlloc_spec hres halloc
  rw [Fallible.run_pure_eq_ok_iff] at h
  rw [← h.1]
  have hself : Function.update x.blocks ⟨0, by decide⟩ b 0 = b :=
    Function.update_self _ _ _
  exact hself ▸ hprov.ne_zero

theorem blocksFor_eq_zero (h : x.size = 0) : blocksFor x.size.toNat = 0 := by
  rw [h]
  rfl

theorem addToExisting_empty :
    Spec (· = fs) (addToExisting x newId name (List.range (blocksFor x.size.toNat)))
      (fun added _ => x.size = 0 → added = false) (fun _ _ => True) := by
  by_cases hsize : x.size = 0
  · rw [blocksFor_eq_zero hsize]
    exact Spec.pure fun _ _ _ => rfl
  · exact Spec.any.consequence (fun _ h => h) (fun _ _ _ h => absurd h hsize) (fun _ _ h => h)

theorem dirAddEntry_live (hs : SoundIn I fs) (hroom : DirRoom fs.device parentId) :
    Spec (· = fs) (dirAddEntry parentId newId name) (fun _ s => SoundIn I s ∧
        (∀ j, j ≠ parentId → liveInode s.device j = liveInode fs.device j) ∧
        ∀ x, liveInode fs.device parentId = some x → x.size = 0 → HoldsEntry s.device parentId)
      (fun _ => SoundIn I) := by
  refine readInode_spec.andThen (fun _ _ h => h ▸ hs) fun parent => ?_
  refine Spec.pointwise fun s ⟨hfs, hparent⟩ => ?_
  subst hfs
  have hx := hs.ownTree hparent
  have hsound : ∀ {s'}, KeptIn I s s' parent parent → SoundIn I s' := fun h =>
    hs.of_kept hparent h
  refine ((addToExisting_spec hs.holds hx _).and addToExisting_empty).andThen
    (fun _ _ h => hsound h.1) fun added => ?_
  refine Spec.pointwise fun s1 ⟨hkept1, hadded⟩ => ?_
  refine Spec.ite (fun htrue => ?_) fun _ => ?_
  · -- the entry went into a block of the directory
    refine Spec.pure fun s2 h => ?_
    subst h
    refine ⟨hsound hkept1, fun j _ => by rw [hkept1.liveInode_eq hx], ?_⟩
    intro x hlive hsize
    rw [hparent, Option.some.injEq] at hlive
    rw [hadded (hlive ▸ hsize)] at htrue
    exact absurd htrue (by decide)
  have hh1 := hkept1.healthy hs.healthy
  refine ((inodeAllocBlock_spec hkept1.holds hh1 hkept1.ownTree (hroom parent hparent)).and
    Spec.self).andThen (fun _ _ h => hsound (hkept1.trans h.1)) fun ⟨newPhys, parent'⟩ => ?_
  refine Spec.pointwise fun s2 ⟨⟨hkept2, hdata⟩, hrun⟩ => ?_
  have hrefs : ∀ size, ({ parent' with size := size } : Inode).SameRefs parent' :=
    fun _ => ⟨rfl, rfl, rfl, rfl⟩
  refine (writeInode_spec hs.toSound hparent (hkept1.trans hkept2) (hrefs _)).andThen
    (fun _ _ h => h.elim) fun _ => ?_
  refine Spec.pointwise fun s3 ⟨hs3, hlive3, hdata3⟩ => ?_
  cases writeEntryRaw Image.zero newId name with
  | error e => exact Spec.fail fun s h => h ▸ hs3
  | ok buf =>
    have hlive := congrFun hlive3 parentId
    rw [Function.update_self] at hlive
    refine (writeData_spec hs3.holds (hs3.ownTree hlive) (hdata3 _ hdata) buf).consequence
      (fun _ h => h) (fun _ s4 hkept => ?_) (fun _ _ h => hs3.of_kept hlive h)
    have hsame := hkept.liveInode_eq (hs3.ownTree hlive)
    refine ⟨hs3.of_kept hlive hkept, fun j hj => ?_, fun x hold hsize => ?_⟩
    · rw [hsame, hlive3, Function.update_of_ne hj]
    · rw [hparent, Option.some.injEq] at hold
      rw [hold, blocksFor_eq_zero hsize] at hrun hlive
      exact ⟨_, (congrFun hsame parentId).trans hlive, rfl, inodeAllocBlock_first hh1.reserved hrun⟩

theorem dirAddEntry_spec (hs : SoundIn I fs) (hroom : DirRoom fs.device parentId) :
    Spec (· = fs) (dirAddEntry parentId newId name) (fun _ => SoundIn I) (fun _ => SoundIn I) :=
  (dirAddEntry_live hs hroom).consequence (fun _ h => h) (fun _ _ h => h.1) fun _ _ h => h

theorem checkNewEntry_spec : Spec (· = fs) (checkNewEntry parentId name)
      (fun _ s => s = fs ∧ DirRoom fs.device parentId) (fun _ s => s = fs) := by
  refine Spec.ite (fun _ => Spec.fail fun _ h => h) fun _ => ?_
  refine readInode_spec.bind fun parent => ?_
  refine Spec.pointwise fun s ⟨hs, hparent⟩ => ?_
  subst hs
  refine Spec.ite (fun _ => Spec.fail fun _ h => h) fun hmode => ?_
  refine lookupInDir_spec.bind fun found => ?_
  refine Spec.ite (fun _ => Spec.fail fun _ h => h) fun _ => ?_
  refine Spec.pure fun _ h => ⟨h, fun x hx => Or.inl ?_⟩
  rw [hparent, Option.some.injEq] at hx
  exact hx ▸ not_not.mp hmode

theorem DirRoom.update {d d' : Disk} {y : Inode} (h : DirRoom d parentId)
    (hlive : liveInode d' = Function.update (liveInode d) id (some y))
    (hy : y.mode = inodeModeDir ∨ blocksFor y.size.toNat < 1034) :
    DirRoom d' parentId := by
  intro x hx
  rw [hlive] at hx
  by_cases hid : parentId = id
  · rw [hid, Function.update_self, Option.some.injEq] at hx
    exact hx ▸ hy
  · rw [Function.update_of_ne hid] at hx
    exact h x hx

theorem DirRoom.relink {d d' : Disk} {y : Inode} (h : DirRoom d parentId)
    (hlive : liveInode d' = Function.update (liveInode d) id (some y))
    (hx : liveInode d id = some x) (hmode : y.mode = x.mode) (hsize : y.size = x.size) :
    DirRoom d' parentId := by
  intro z hz
  rw [hlive] at hz
  by_cases hid : parentId = id
  · rw [hid, Function.update_self, Option.some.injEq] at hz
    rw [← hz, hmode, hsize]
    exact h x (hid ▸ hx)
  · rw [Function.update_of_ne hid] at hz
    exact h z hz

theorem flushSuperblock_live {inodes : UInt32 → Option Inode} :
    Spec (fun s => SoundIn I s ∧ liveInode s.device = inodes) flushSuperblock
      (fun _ s => SoundIn I s ∧ liveInode s.device = inodes) (fun _ => SoundIn I) := by
  refine Spec.bind Spec.gets fun sb => ?_
  exact (spec_writeMetadata (by decide) (by decide) (by decide) _).consequence
    (fun _ h => h.1) (fun _ _ h => h) (fun _ _ h => h.1)

theorem createFile_live (hs : SoundIn I fs) (htake : TakesSlot I fs) :
    Spec (· = fs) (createFile now parentId name)
      (fun id s => SoundIn I s ∧ nextInode fs.device = some id ∧
        (id ≠ parentId → liveInode s.device id = some (freshInode inodeModeFile now).stamped) ∧
        (id = parentId → HoldsEntry s.device id))
      (fun _ => SoundIn I) := by
  refine checkNewEntry_spec.andThen (fun _ _ h => h ▸ hs) fun _ => ?_
  refine Spec.assume fun hroom => ?_
  refine (allocInode_taken hs htake).bind fun newId => ?_
  refine Spec.pointwise fun s ⟨⟨hs1, hlive⟩, hnext⟩ => ?_
  have hself := congrFun hlive newId
  rw [Function.update_self] at hself
  have hroom1 : DirRoom s.device parentId :=
    hroom.update hlive (Or.inr (Nat.lt_of_lt_of_le (show blocksFor 0 < 1 by decide) (by omega)))
  refine (dirAddEntry_live hs1 hroom1).bind fun _ => ?_
  refine Spec.pointwise fun s2 ⟨hs2, hothers, hentry⟩ => ?_
  have hstart : ∀ s', s' = s2 → SoundIn I s' ∧ liveInode s'.device = liveInode s2.device := by
    rintro _ rfl
    exact ⟨hs2, rfl⟩
  refine (Spec.pre hstart flushSuperblock_live).bind fun _ => ?_
  refine Spec.pure fun s3 ⟨hs3, hlive3⟩ => ⟨hs3, hnext, fun hne => ?_, fun heq => ?_⟩
  · rw [hlive3, hothers newId hne, hself]
  · rw [HoldsEntry, hlive3, heq]
    exact hentry _ (heq ▸ hself) rfl

theorem createFile_spec (hs : SoundIn I fs) (htake : TakesSlot I fs) :
    Spec (· = fs) (createFile now parentId name) (fun _ => SoundIn I) (fun _ => SoundIn I) :=
  (createFile_live hs htake).consequence (fun _ h => h) (fun _ _ h => h.1) fun _ _ h => h

/-- A new block becomes the first block of a directory: `store` is the inode
that is written back, `next` what follows. -/
theorem attach_spec {α : Type} {y : Inode} {store : UInt32 → Inode → Inode}
    {next : UInt32 → FsM α} {Q : α → ZiqaFs → Prop} (hs : SoundIn I fs)
    (hy : liveInode fs.device id = some y)
    (hstore : ∀ b, (store b y).SameRefs { y with blocks := Function.update y.blocks 0 b })
    (hnext : ∀ b s, SoundIn I s → liveInode s.device =
        Function.update (liveInode fs.device) id (some (store b y).stamped) →
      DataBlockOf s (store b y).stamped b →
      Spec (· = s) (next b) Q (fun _ => SoundIn I)) :
    Spec (· = fs) (do
        let b ← allocDataBlock
        let x ← readInode id
        writeInode id (store b x)
        next b) Q (fun _ => SoundIn I) := by
  have hx := hs.ownTree hy
  refine (Spec.andThen (P := (· = fs)) (x := allocDataBlock)
    (Q := fun b s => KeptIn I fs s y { y with blocks := Function.update y.blocks 0 b } ∧
      b ≠ 0) (F := fun _ s => s = fs) ⟨?_, ?_⟩ (fun _ _ h => h ▸ hs) fun b => ?_)
  · rintro _ b s rfl h
    obtain ⟨halloc, hgeo⟩ := allocDataBlock_spec hs.healthy.reserved h
    refine ⟨⟨⟨halloc.rewrites_direct 0 hx, hgeo⟩, Steady.allocated hs.holds hs.healthy h⟩, ?_⟩
    rintro rfl
    exact halloc.fresh (Or.inl (by decide))
  · rintro _ e s rfl h
    exact (allocDataBlock_error hs.healthy h).1
  refine Spec.assume fun hb => ?_
  refine Spec.pointwise fun s hkept => ?_
  have hload : (readInode id).run s = (.ok y, s) := by
    rw [readInode_run, hkept.loadInode_eq hx, liveInode_eq_some_iff.mp hy]
  refine (Spec.of_run_ok (Q := fun z s' => s' = s ∧ z = y) hload ⟨rfl, rfl⟩).bind fun z => ?_
  refine Spec.assume fun hz => ?_
  subst hz
  have hdata : DataBlockOf s { z with blocks := Function.update z.blocks 0 b } b :=
    ⟨hb, .direct 0, rfl, rfl, by simp [refAt]⟩
  refine (writeInode_spec hs.toSound hy hkept (hstore b)).andThen (fun _ _ h => h.elim) fun _ => ?_
  exact Spec.pointwise fun s1 h => hnext b s1 h.1 h.2.1 (h.2.2 _ hdata)

theorem initDirBlock_spec {y : Inode} (hs : SoundIn I fs) (hy : liveInode fs.device id = some y) :
    Spec (· = fs) (initDirBlock id parentId now) (fun _ s => SoundIn I s ∧ ∃ z, z.mode = y.mode ∧
        liveInode s.device = Function.update (liveInode fs.device) id (some z))
      (fun _ => SoundIn I) := by
  refine attach_spec hs hy (fun b => ⟨rfl, rfl, rfl, rfl⟩) fun b s hs1 hlive1 hdata => ?_
  have hlive := congrFun hlive1 id
  rw [Function.update_self] at hlive
  refine (writeData_spec hs1.holds (hs1.ownTree hlive) hdata _).andThen
    (fun _ _ h => hs1.of_kept hlive h) fun _ => ?_
  refine Spec.pure fun s2 hkept => ⟨hs1.of_kept hlive hkept, _, ?_,
    (hkept.liveInode_eq (hs1.ownTree hlive)).trans hlive1⟩
  rfl

theorem createDir_spec {now' : UInt32} (hs : SoundIn I fs) (htake : TakesSlot I fs) :
    Spec (· = fs) (createDir now now' parentId name) (fun _ => SoundIn I) (fun _ => SoundIn I) := by
  refine checkNewEntry_spec.andThen (fun _ _ h => h ▸ hs) fun _ => ?_
  refine Spec.assume fun hroom => ?_
  refine (allocInode_taken hs htake).bind fun newId => ?_
  refine Spec.pointwise fun s ⟨⟨hs1, hlive⟩, _⟩ => ?_
  have hnew := congrFun hlive newId
  rw [Function.update_self] at hnew
  have hroom1 := hroom.update hlive (Or.inl rfl)
  refine (initDirBlock_spec hs1 hnew).bind fun _ => ?_
  refine Spec.pointwise fun s2 ⟨hs2, z, hz, hlive2⟩ => ?_
  refine (dirAddEntry_spec hs2 (hroom1.update hlive2 (Or.inl hz))).bind fun _ => ?_
  exact flushSuperblock_spec.bind fun _ => Spec.pure fun _ h => h

theorem journalCommit_spec {op : UInt8} {block : UInt32} {payload : List UInt8}
    {inodes : UInt32 → Option Inode} :
    Spec (fun s => SoundIn I s ∧ liveInode s.device = inodes) (journalCommit op block payload)
      (fun _ s => SoundIn I s ∧ liveInode s.device = inodes)
      (fun _ s => SoundIn I s ∧ liveInode s.device = inodes) := by
  refine spec_readBlock.bind fun buf => Spec.pre (fun _ h => h.1) ?_
  refine Spec.ite (fun _ => Spec.pure fun _ h => h) fun _ => ?_
  exact spec_writeMetadata (by decide) (by decide) (by decide) _

/-- `link` has stored nothing but its journal record when it comes to the inode. -/
theorem linkCommit_spec {srcId dstParent : UInt32} (hs : SoundIn I fs) :
    Spec (· = fs) (linkCommit now srcId dstParent name)
      (fun x' s => SoundIn I s ∧ liveInode s.device = liveInode fs.device ∧
        ∃ x, liveInode fs.device srcId = some x ∧
          x' = { x with nlink := x.nlink + 1, ctime := now })
      (fun _ => SoundIn I) := by
  have herror : ∀ (e : Failure) (s : ZiqaFs), s = fs → SoundIn I s :=
    fun _ _ h => h ▸ hs
  refine Spec.ite (fun _ => Spec.fail (herror .fault)) fun _ => ?_
  refine readInode_spec.andThen herror fun x => ?_
  refine Spec.pointwise fun s ⟨hfs, hx⟩ => ?_
  subst hfs
  refine Spec.ite (fun _ => Spec.fail (herror .fault)) fun _ => ?_
  refine readInode_spec.andThen herror fun dstDir => Spec.pre (fun _ h => h.1) ?_
  refine lookupInDir_spec.andThen herror fun found => ?_
  refine Spec.ite (fun _ => Spec.fail (herror .fault)) fun _ => ?_
  refine Spec.pre (P := fun s' => SoundIn I s' ∧ liveInode s'.device =
    liveInode s.device) ?_ (Spec.bind journalCommit_spec.attempt fun _ => ?_)
  · rintro _ rfl
    exact ⟨hs, rfl⟩
  exact Spec.pure fun s1 ⟨hs1, hlive1⟩ => ⟨hs1, hlive1, x, hx, rfl⟩

theorem link_spec {srcId dstParent : UInt32} (hs : SoundIn I fs)
    (hroom : DirRoom fs.device dstParent) :
    Spec (· = fs) (link now srcId dstParent name) (fun _ => SoundIn I) (fun _ => SoundIn I) := by
  refine (linkCommit_spec hs).bind fun x' => ?_
  refine Spec.pointwise fun s1 ⟨hs1, hlive1, x, hx, hx'⟩ => ?_
  subst hx'
  have hx1 : liveInode s1.device srcId = some x := by rw [hlive1, hx]
  have hrefs : ({ x with nlink := x.nlink + 1, ctime := now } : Inode).SameRefs x :=
    ⟨rfl, rfl, rfl, rfl⟩
  refine (writeInode_spec hs1.toSound hx1 (.refl (hs1.ownTree hx1) hs1.holds) hrefs).andThen
    (fun _ _ h => h.elim) fun _ => ?_
  refine Spec.pointwise fun s2 ⟨hs2, hlive2, _⟩ => dirAddEntry_spec hs2 ?_
  rw [hlive1] at hlive2
  exact DirRoom.relink hroom hlive2 hx rfl rfl

theorem renameRemove_exact {t : UInt32} (logicals : List Nat) :
    Spec (· = fs) (renameRemove dir t logicals) (fun _ s => s = fs ∨ BlockEdited fs s dir
        (fun buf buf' => removeEntryRaw buf 4096 t = (buf', true)))
      (fun _ s => s = fs) := by
  induction logicals with
  | nil => exact Spec.pure fun _ h => Or.inl h
  | cons l rest ih =>
    refine inodeGetBlock_spec.bind fun ⟨phys, sum⟩ => ?_
    refine Spec.pointwise fun s ⟨hs, hmap⟩ => ?_
    subst hs
    refine Spec.ite (fun _ => ih) fun hphys => ?_
    refine spec_readBlock.bind fun buf => ?_
    refine Spec.pointwise fun s' ⟨hs', hbuf⟩ => ?_
    subst hs'
    refine Spec.ite (fun hremoved => ?_) fun _ => ih
    exact (spec_editBlock (R := fun buf buf' => removeEntryRaw buf 4096 t =
      (buf', true)) hmap hphys (hbuf ▸ Prod.ext rfl hremoved)).consequence
        (fun _ h => h) (fun _ _ h => Or.inr h) (fun _ _ h => h)

theorem renameRemove_spec {t : UInt32} (hI : I fs) (hx : OwnTree fs dir) (logicals : List Nat) :
    Spec (· = fs) (renameRemove dir t logicals)
      (fun _ s => KeptIn I fs s dir dir) (fun _ s => KeptIn I fs s dir dir) := by
  refine (renameRemove_exact logicals).consequence (fun _ h => h) (fun _ s h => ?_)
    (fun _ _ h => .of_eq hI hx h)
  rcases h with rfl | hedit
  · exact .refl hx hI
  · exact hedit.kept hI hx

theorem rename_spec {srcParent dstParent : UInt32} (hs : SoundIn I fs)
    (hroom : DirRoom fs.device dstParent) :
    Spec (· = fs) (rename srcParent name dstParent newName) (fun _ => SoundIn I)
      (fun _ => SoundIn I) := by
  have herror : ∀ (e : Failure) (s : ZiqaFs), s = fs → SoundIn I s :=
    fun _ _ h => h ▸ hs
  refine Spec.ite (fun _ => Spec.fail (herror .fault)) fun _ => ?_
  refine readInode_spec.andThen herror fun srcDir => ?_
  refine Spec.pointwise fun s ⟨hfs, hsrc⟩ => ?_
  subst hfs
  refine lookupInDir_spec.andThen herror fun found => ?_
  refine (Spec.ofOption (E := fun _ => SoundIn I) (herror .fault)).bind fun t =>
    Spec.pre (fun _ h => h.1) ?_
  refine (renameRemove_spec hs.holds (hs.ownTree hsrc) _).andThen
    (fun _ _ h => hs.of_kept hsrc h) fun _ => ?_
  refine Spec.pointwise fun s1 hkept => ?_
  refine dirAddEntry_spec (hs.of_kept hsrc hkept) ?_
  rwa [DirRoom, hkept.liveInode_eq (hs.ownTree hsrc)]

theorem Kept.clearWord {l : Nat} (hx : OwnTree fs x) (hl : l < 1024) (hind : x.indirect ≠ 0) :
    Kept fs { fs with
      device := fs.device.setBlock x.indirect ((fs.device.block x.indirect).setWord l 0) } x x := by
  refine ⟨Patched.rewrites_indirect (w := l) ⟨Extends.refl _, fun v hv => ?_⟩ hx hind, ⟨rfl, rfl⟩⟩
  by_cases hvl : v = l
  · rw [hvl, Image.word_setWord_self _ _ (by omega)] at hv
    exact absurd rfl hv
  · exact Or.inl (Image.word_setWord_ne _ _ hvl)

theorem truncateRound_spec {l : Nat} :
    Spec (fun s => KeptIn I fs s x x) (truncateRound x l) (fun _ s => KeptIn I fs s x x)
      (fun _ s => KeptIn I fs s x x) := by
  refine inodeGetBlock_spec.bind fun ⟨phys, sum⟩ => ?_
  refine Spec.pointwise fun s ⟨hkept, hmap⟩ => ?_
  refine Spec.ite (fun hphys => ?_) fun _ => Spec.pure fun _ h => h ▸ hkept
  refine spec_readBlock.andThen (fun _ _ h => h ▸ hkept) fun buf => ?_
  refine Spec.pre (fun _ h => h.1) ?_
  refine Spec.ite (fun _ => ?_) fun _ => ?_
  · exact hkept.then_write (writeData_spec hkept.holds hkept.ownTree (.of_blockMap hmap hphys) buf)
  refine Spec.ite (fun hidx => ?_) fun _ => Spec.pure fun _ h => h ▸ hkept
  refine spec_readBlock.andThen (fun _ _ h => h ▸ hkept) fun words => ?_
  refine Spec.pointwise fun s1 ⟨hs1, hwords⟩ => ?_
  subst hs1 hwords
  exact hkept.then_write (spec_writeKept hkept.holds hkept.ownTree
    (hkept.ownTree.inUse_refAt (s := .indirect) rfl hidx.2)
    (Kept.clearWord hkept.ownTree hidx.1 hidx.2))

theorem zeroTail_spec {newSize : Nat} : Spec (fun s => KeptIn I fs s x x) (zeroTail x newSize)
      (fun _ s => KeptIn I fs s x x) (fun _ s => KeptIn I fs s x x) := by
  refine Spec.ite (fun _ => ?_) fun _ => Spec.pure fun _ h => h
  refine inodeGetBlock_spec.bind fun ⟨phys, sum⟩ => ?_
  refine Spec.pointwise fun s ⟨hkept, hmap⟩ => ?_
  refine Spec.ite (fun hphys => ?_) fun _ => Spec.pure fun _ h => h ▸ hkept
  refine spec_readBlock.andThen (fun _ _ h => h ▸ hkept) fun buf => ?_
  refine Spec.pre (fun _ h => h.1) ?_
  exact hkept.then_write (writeData_spec hkept.holds hkept.ownTree (.of_blockMap hmap hphys) _)

theorem truncate_spec {newSize : Nat} (hs : SoundIn I fs) :
    Spec (· = fs) (truncate now id newSize) (fun _ => SoundIn I) (fun _ => SoundIn I) := by
  refine readInode_spec.andThen (fun _ _ h => h ▸ hs) fun x => ?_
  refine Spec.pointwise fun s ⟨hfs, hx⟩ => ?_
  subst hfs
  have hsound : ∀ (e : Failure) (s' : ZiqaFs), KeptIn I s s' x x → SoundIn I s' :=
    fun _ _ h => hs.of_kept hx h
  refine Spec.ite (fun _ => Spec.fail fun _ h => h ▸ hs) fun _ => ?_
  refine Spec.pre (P := fun s' => KeptIn I s s' x x) ?_ ?_
  · rintro _ rfl
    exact .refl (hs.ownTree hx) hs.holds
  refine Spec.andThen (Spec.forM _ fun l _ => truncateRound_spec) hsound fun _ => ?_
  refine zeroTail_spec.andThen hsound fun _ => ?_
  refine Spec.pointwise fun s1 hkept => ?_
  have hrefs : ({ x with size := UInt32.ofNat newSize, mtime := now } :
      Inode).SameRefs x := ⟨rfl, rfl, rfl, rfl⟩
  refine (writeInode_spec hs.toSound hx hkept hrefs).andThen (fun _ _ h => h.elim) fun _ => ?_
  exact flushSuperblock_spec.pre fun _ h => h.1

end ZiqaKernel
