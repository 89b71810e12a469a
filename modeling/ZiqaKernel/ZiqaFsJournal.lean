/-
The journal of ZiqaFS (`fs/ziqafs/journal.rs`): what `journal_replay` makes of the
records that `link` has committed.  Records are never cleared; each patches the
first 56 bytes of an inode, in the order of the slots.
-/
import ZiqaKernel.UpdateSequences
import ZiqaKernel.ZiqaFsRuns

namespace ZiqaKernel

open Fallible Image Disk Function

/-! Records -/

/-- `JournalEntry`. -/
structure JournalEntry where
  op : UInt8
  block : UInt32
  data : Image 56

/-- The entry in a slot of the journal block, behind the header of 64 bytes. -/
def journalEntry (buf : Block) (slot : Nat) : JournalEntry where
  op := buf.get (64 + 64 * slot)
  block := u32At buf.get (64 + 64 * slot + 4)
  data := ofFn fun k => buf.get (64 + 64 * slot + 8 + k)

def JournalEntry.valid (e : JournalEntry) : Bool :=
  u32At e.data.get 52 == crc32 (e.data.slice 0 52)

/-- The operation codes that `journal_replay` knows. -/
def opWriteInode : UInt8 := 3
def opWriteBitmap : UInt8 := 4

/-- `patch_inode_raw`; a slice that leaves the block panics. -/
def patchInodeRaw (id : UInt32) (offset : Nat) (data : Image 56) : FsM Unit := do
  let buf ← readBlock inodeTableBlock
  if id.toNat * 136 + offset + 56 ≤ 4096 then
    writeBlock inodeTableBlock (buf.splice (id.toNat * 136 + offset) 56 data.get)
  else faulted

/-- `patch_bitmap_byte`. -/
def patchBitmapByte (offset : Nat) (value : UInt8) : FsM Unit := do
  let bitmap ← readBlock bitmapBlock
  if offset < 4096 then writeBlock bitmapBlock (bitmap.splice offset 1 fun _ => value)
  else faulted

def counted (replayed : Nat) (patch : FsM Unit) : FsM Nat := do
  let done ← okOrNone patch
  pure (if done.isSome then replayed + 1 else replayed)

/-- One round of the loop of `journal_replay`. -/
def replayEntry (replayed : Nat) (e : JournalEntry) : FsM Nat :=
  if !e.valid then pure replayed
  else if e.op = opWriteInode then
    if e.block < inodeCount then counted replayed (patchInodeRaw e.block 0 e.data)
    else pure replayed
  else if e.op = opWriteBitmap then
    counted replayed (patchBitmapByte e.block.toNat (e.data.get 0))
  else pure replayed

def journalEntries (buf : Block) : List JournalEntry :=
  (List.range 63).map (journalEntry buf)

/-- `journal_replay`. -/
def journalReplay : FsM Nat := do
  match ← okOrNone (readBlock journalBlock) with
  | none => pure 0
  | some buf =>
    if u32At buf.get 0 ≠ journalMagic ∨ u32At buf.get 8 = 0 then pure 0
    else (journalEntries buf).foldlM replayEntry 0

/-! What a replay does -/

namespace JournalEntry

def patchesInode (e : JournalEntry) : Bool :=
  e.valid && (e.op == opWriteInode) && decide (e.block < inodeCount)

def patchesBitmap (e : JournalEntry) : Bool := e.valid && (e.op == opWriteBitmap)

def Fits (e : JournalEntry) : Prop :=
  (e.patchesInode = true → e.block.toNat * 136 + 56 ≤ 4096) ∧
    (e.patchesBitmap = true → e.block.toNat < 4096)

def patch (e : JournalEntry) (d : Disk) : Disk :=
  if e.patchesInode then
    d.setBlock inodeTableBlock
      ((d.block inodeTableBlock).splice (e.block.toNat * 136) 56 e.data.get)
  else if e.patchesBitmap then
    d.setBlock bitmapBlock ((d.block bitmapBlock).splice e.block.toNat 1 fun _ => e.data.get 0)
  else d

@[simp]
theorem totalSectors_patch (e : JournalEntry) (d : Disk) :
    (e.patch d).totalSectors = d.totalSectors := by
  unfold patch
  split
  · rfl
  · split <;> rfl

end JournalEntry

variable {fs fs' : ZiqaFs} {e : JournalEntry} {n : Nat}

theorem okOrNone_run_ok {α : Type} {x : FsM α} {a : α} (h : x.run fs = (.ok a, fs')) :
    (okOrNone x).run fs = (.ok (some a), fs') := by
  simp only [okOrNone, h]

theorem counted_run_ok {x : FsM Unit} (h : x.run fs = (.ok (), fs')) :
    (counted n x).run fs = (.ok (n + 1), fs') := by
  rw [counted, run_bind_of_ok (okOrNone_run_ok h)]
  rfl

theorem counted_run_fault {x : FsM Unit} (h : x.run fs = (.error .fault, fs')) :
    (counted n x).run fs = (.error .fault, fs') := by
  have hnone : (okOrNone x).run fs = (.error .fault, fs') := by
    simp only [okOrNone, h]
  rw [counted, run_bind_of_error hnone]

theorem patchInodeRaw_run (hrange : fs.device.InRange inodeTableBlock) (id : UInt32)
    (data : Image 56) : (patchInodeRaw id 0 data).run fs =
      if id.toNat * 136 + 56 ≤ 4096 then
        (.ok (), { fs with
          device := fs.device.setBlock inodeTableBlock
            ((fs.device.block inodeTableBlock).splice (id.toNat * 136) 56 data.get) })
      else (.error .fault, fs) := by
  rw [patchInodeRaw, run_bind_of_ok (readBlock_run_ok hrange), Nat.add_zero]
  split
  · exact writeBlock_run_ok hrange _
  · rfl

theorem patchBitmapByte_run (hrange : fs.device.InRange bitmapBlock) (offset : Nat)
    (value : UInt8) : (patchBitmapByte offset value).run fs =
      if offset < 4096 then
        (.ok (), { fs with
          device := fs.device.setBlock bitmapBlock
            ((fs.device.block bitmapBlock).splice offset 1 fun _ => value) })
      else (.error .fault, fs) := by
  rw [patchBitmapByte, run_bind_of_ok (readBlock_run_ok hrange)]
  split
  · exact writeBlock_run_ok hrange _
  · rfl

theorem replayEntry_run (hrange : fs.device.InRange journalBlock) (n : Nat) (e : JournalEntry) :
    (e.Fits → (replayEntry n e).run fs =
      (.ok (if e.patchesInode || e.patchesBitmap then n + 1 else n),
        { fs with device := e.patch fs.device })) ∧
    (¬ e.Fits → (replayEntry n e).run fs = (.error .fault, fs)) := by
  have htable : fs.device.InRange inodeTableBlock := by
    have hsectors : 8 * 4 + 8 ≤ fs.device.totalSectors := hrange
    change 8 * 3 + 8 ≤ fs.device.totalSectors
    omega
  have hbitmap : fs.device.InRange bitmapBlock := by
    have hsectors : 8 * 4 + 8 ≤ fs.device.totalSectors := hrange
    change 8 * 2 + 8 ≤ fs.device.totalSectors
    omega
  unfold replayEntry JournalEntry.Fits JournalEntry.patch JournalEntry.patchesInode
    JournalEntry.patchesBitmap
  by_cases hvalid : e.valid = true
  · by_cases hinode : e.op = opWriteInode
    · have hop : ¬ opWriteInode = opWriteBitmap := by decide
      by_cases hid : e.block < inodeCount
      · by_cases hfit : e.block.toNat * 136 + 56 ≤ 4096
        · have hrun := patchInodeRaw_run htable e.block e.data
          rw [if_pos hfit] at hrun
          simp [hvalid, hinode, hid, hfit, hop, counted_run_ok hrun]
        · have hrun := patchInodeRaw_run htable e.block e.data
          rw [if_neg hfit] at hrun
          simp [hvalid, hinode, hid, hfit, hop, counted_run_fault hrun]
      · simp [hvalid, hinode, hid, hop]
    · by_cases hbit : e.op = opWriteBitmap
      · by_cases hfit : e.block.toNat < 4096
        · have hrun := patchBitmapByte_run hbitmap e.block.toNat (e.data.get 0)
          rw [if_pos hfit] at hrun
          rw [hbit] at hinode
          simp [hvalid, hinode, hbit, hfit, counted_run_ok hrun]
        · have hrun := patchBitmapByte_run hbitmap e.block.toNat (e.data.get 0)
          rw [if_neg hfit] at hrun
          rw [hbit] at hinode
          simp [hvalid, hinode, hbit, hfit, counted_run_fault hrun]
      · simp [hvalid, hinode, hbit]
  · simp [hvalid]

def replayed (es : List JournalEntry) (d : Disk) : Disk :=
  es.foldl (fun d e => e.patch d) d

theorem replayed_cons (e : JournalEntry) (es : List JournalEntry) (d : Disk) :
    replayed (e :: es) d = replayed es (e.patch d) := rfl

@[simp]
theorem totalSectors_replayed (es : List JournalEntry) (d : Disk) :
    (replayed es d).totalSectors = d.totalSectors := by
  induction es generalizing d with
  | nil => rfl
  | cons e es ih => rw [replayed_cons, ih, JournalEntry.totalSectors_patch]

def patchCount (es : List JournalEntry) : Nat :=
  es.countP fun e => e.patchesInode || e.patchesBitmap

theorem foldlM_replayEntry (hrange : fs.device.InRange journalBlock)
    (es : List JournalEntry) (n : Nat) :
    ((∀ e ∈ es, e.Fits) → (es.foldlM replayEntry n).run fs =
      (.ok (n + patchCount es), { fs with device := replayed es fs.device })) ∧
    (¬ (∀ e ∈ es, e.Fits) → ((es.foldlM replayEntry n).run fs).1 = .error .fault) := by
  induction es generalizing fs n with
  | nil => simp [replayed, patchCount]
  | cons e es ih =>
    obtain ⟨hok, hfault⟩ := replayEntry_run hrange n e
    rw [List.foldlM_cons, List.forall_mem_cons]
    by_cases hfit : e.Fits
    · have hrange' : (e.patch fs.device).InRange journalBlock := by
        rw [InRange, JournalEntry.totalSectors_patch]
        exact hrange
      have hround : ({ fs with device := e.patch fs.device } : ZiqaFs).device.InRange
          journalBlock := hrange'
      obtain ⟨hrest, hstop⟩ := ih hround (if e.patchesInode || e.patchesBitmap then n + 1 else n)
      rw [run_bind_of_ok (hok hfit)]
      constructor
      · rintro ⟨-, hfits⟩
        rw [hrest hfits, replayed_cons, patchCount, patchCount, List.countP_cons]
        congr 2
        split <;> omega
      · intro hnot
        exact hstop fun hfits => hnot ⟨hfit, hfits⟩
    · rw [run_bind_of_error (hfault hfit)]
      exact ⟨fun h => absurd h.1 hfit, fun _ => rfl⟩

/-- The entries that `journal_replay` goes through. -/
def activeEntries (d : Disk) : List JournalEntry :=
  if d.InRange journalBlock ∧ u32At (d.block journalBlock).get 0 = journalMagic ∧
      u32At (d.block journalBlock).get 8 ≠ 0 then
    journalEntries (d.block journalBlock)
  else []

/-- `journal_replay` makes the patches of the active entries in order, unless one of
them leaves its block. -/
theorem journalReplay_run (fs : ZiqaFs) :
    ((∀ e ∈ activeEntries fs.device, e.Fits) → journalReplay.run fs =
      (.ok (patchCount (activeEntries fs.device)),
        { fs with device := replayed (activeEntries fs.device) fs.device })) ∧
    (¬ (∀ e ∈ activeEntries fs.device, e.Fits) → (journalReplay.run fs).1 = .error .fault) := by
  unfold journalReplay activeEntries
  by_cases hrange : fs.device.InRange journalBlock
  · rw [run_bind_of_ok (okOrNone_run_ok (readBlock_run_ok hrange))]
    dsimp only
    by_cases hmagic : u32At (fs.device.block journalBlock).get 0 = journalMagic
    · by_cases hcommitted : u32At (fs.device.block journalBlock).get 8 = 0
      · simp [hmagic, hcommitted, replayed, patchCount]
      · have hrun := foldlM_replayEntry hrange (journalEntries (fs.device.block journalBlock)) 0
        rw [Nat.zero_add] at hrun
        rw [if_pos ⟨hrange, hmagic, hcommitted⟩, if_neg (by simp [hmagic, hcommitted])]
        exact hrun
    · simp [hmagic, replayed, patchCount]
  · have hnone : (okOrNone (readBlock journalBlock)).run fs = (.ok none, fs) := by
      simp only [okOrNone, run_readBlock, hrange, ↓reduceIte]
    rw [run_bind_of_ok hnone, if_neg fun h => hrange h.1]
    simp [replayed, patchCount]

/-! The bytes that a replay writes -/

def slotHead (table : Block) (id : UInt32) : Image 56 :=
  ofFn fun k => table.get (id.toNat * 136 + k)

def inodeWrites (es : List JournalEntry) : List (UInt32 × Image 56) :=
  es.filterMap fun e => if e.patchesInode then some (e.block, e.data) else none

def bitmapWrites (es : List JournalEntry) : List (Nat × UInt8) :=
  es.filterMap fun e =>
    if e.patchesBitmap then some (e.block.toNat, e.data.get 0) else none

theorem inodeWrites_cons (e : JournalEntry) (es : List JournalEntry) : inodeWrites (e :: es) =
      if e.patchesInode then (e.block, e.data) :: inodeWrites es else inodeWrites es := by
  rw [inodeWrites, List.filterMap_cons, ← inodeWrites]
  cases e.patchesInode <;> rfl

theorem bitmapWrites_cons (e : JournalEntry) (es : List JournalEntry) : bitmapWrites (e :: es) =
      if e.patchesBitmap then (e.block.toNat, e.data.get 0) :: bitmapWrites es
      else bitmapWrites es := by
  rw [bitmapWrites, List.filterMap_cons, ← bitmapWrites]
  cases e.patchesBitmap <;> rfl

theorem JournalEntry.patchesBitmap_of_patchesInode (h : e.patchesInode = true) :
    e.patchesBitmap = false := by
  unfold patchesInode patchesBitmap at *
  simp only [Bool.and_eq_true, beq_iff_eq] at h
  rw [h.1.2]
  simp [opWriteInode, opWriteBitmap]

theorem slotHead_splice {table : Block} {id : UInt32} (hfit : id.toNat * 136 + 56 ≤ 4096)
    (data : Image 56) : slotHead (table.splice (id.toNat * 136) 56 data.get) =
      update (slotHead table) id data := by
  funext j
  by_cases hj : j = id
  · subst hj
    rw [update_self]
    apply ext
    intro k hk
    rw [slotHead, get_ofFn, if_pos hk]
    exact get_splice_inside _ _ hk hfit
  · have hnat : j.toNat ≠ id.toNat := fun h => hj (UInt32.toNat_inj.mp h)
    rw [update_of_ne hj]
    apply ext
    intro k hk
    rw [slotHead, slotHead, get_ofFn, get_ofFn, if_pos hk, if_pos hk]
    exact get_splice_outside _ _ (by omega)

theorem slotHead_patch {d : Disk} (hfit : e.Fits) : slotHead ((e.patch d).block inodeTableBlock) =
      if e.patchesInode then
        update (slotHead (d.block inodeTableBlock)) e.block e.data
      else slotHead (d.block inodeTableBlock) := by
  unfold JournalEntry.patch
  split
  · next h => rw [block_setBlock_self, slotHead_splice (hfit.1 h)]
  · split
    · rw [block_setBlock_ne _ _ (by decide)]
    · rfl

theorem bitmap_patch {d : Disk} (hfit : e.Fits) : ((e.patch d).block bitmapBlock).get =
      if e.patchesBitmap then
        update (d.block bitmapBlock).get e.block.toNat (e.data.get 0)
      else (d.block bitmapBlock).get := by
  unfold JournalEntry.patch
  split
  · next h =>
    rw [Disk.block_setBlock_ne _ _ (by decide), JournalEntry.patchesBitmap_of_patchesInode h]
    rfl
  · split
    · next h =>
      have hlt := hfit.2 h
      funext off
      rw [block_setBlock_self, get_splice]
      by_cases hoff : off = e.block.toNat
      · rw [if_pos (by omega), hoff, update_self]
      · rw [if_neg (by omega), update_of_ne hoff]
    · rfl

theorem JournalEntry.patch_outside (e : JournalEntry) (d : Disk) :
    (∀ p, 56 ≤ p % 136 → ((e.patch d).block inodeTableBlock).get p =
      (d.block inodeTableBlock).get p) ∧
    ∀ b, b ≠ inodeTableBlock → b ≠ bitmapBlock → (e.patch d).block b = d.block b := by
  unfold JournalEntry.patch
  split
  · refine ⟨fun p hp => ?_, fun b hb _ => block_setBlock_ne _ _ hb⟩
    rw [block_setBlock_self]
    exact get_splice_outside _ _ (by omega)
  · split
    · refine ⟨fun p hp => ?_, fun b _ hb => block_setBlock_ne _ _ hb⟩
      rw [block_setBlock_ne _ _ (by decide)]
    · exact ⟨fun _ _ => rfl, fun _ _ _ => rfl⟩

theorem replayed_outside (es : List JournalEntry) (d : Disk) :
    (∀ p, 56 ≤ p % 136 → ((replayed es d).block inodeTableBlock).get p =
      (d.block inodeTableBlock).get p) ∧
    ∀ b, b ≠ inodeTableBlock → b ≠ bitmapBlock → (replayed es d).block b = d.block b := by
  induction es generalizing d with
  | nil => exact ⟨fun _ _ => rfl, fun _ _ _ => rfl⟩
  | cons e es ih =>
    obtain ⟨htail, hblocks⟩ := ih (e.patch d)
    obtain ⟨htail', hblocks'⟩ := e.patch_outside d
    rw [replayed_cons]
    exact ⟨fun p hp => (htail p hp).trans (htail' p hp),
      fun b hb hb' => (hblocks b hb hb').trans (hblocks' b hb hb')⟩

section

variable {es : List JournalEntry} {d : Disk} (hfits : ∀ e ∈ es, e.Fits)

include hfits

theorem slotHead_replayed : slotHead ((replayed es d).block inodeTableBlock) =
    applyUpdates (inodeWrites es) (slotHead (d.block inodeTableBlock)) := by
  induction es generalizing d with
  | nil => rfl
  | cons e es ih =>
    rw [List.forall_mem_cons] at hfits
    rw [replayed_cons, ih hfits.2, slotHead_patch hfits.1, inodeWrites_cons]
    cases e.patchesInode <;> rfl

theorem bitmap_replayed : ((replayed es d).block bitmapBlock).get =
    applyUpdates (bitmapWrites es) (d.block bitmapBlock).get := by
  induction es generalizing d with
  | nil => rfl
  | cons e es ih =>
    rw [List.forall_mem_cons] at hfits
    rw [replayed_cons, ih hfits.2, bitmap_patch hfits.1, bitmapWrites_cons]
    cases e.patchesBitmap <;> rfl

end

theorem table_ext {table table' : Block} (hheads : slotHead table' = slotHead table)
    (hrest : ∀ p, 56 ≤ p % 136 → table'.get p = table.get p) : table' = table := by
  apply ext
  intro p hp
  by_cases hhead : p % 136 < 56
  · have hid : (UInt32.ofNat (p / 136)).toNat = p / 136 := by
      rw [UInt32.toNat_ofNat']
      omega
    have hbyte := congrArg (fun image : Image 56 => image.get (p % 136))
      (congrFun hheads (UInt32.ofNat (p / 136)))
    simp only [slotHead, get_ofFn, hhead, ↓reduceIte, hid] at hbyte
    have hpos : p / 136 * 136 + p % 136 = p := Nat.div_add_mod' p 136
    rwa [hpos] at hbyte
  · exact hrest p (Nat.not_lt.mp hhead)

/-! Replays on a volume -/

theorem journalReplay_ok_iff {fs' : ZiqaFs} : journalReplay.run fs = (.ok n, fs') ↔
    (∀ e ∈ activeEntries fs.device, e.Fits) ∧ n = patchCount (activeEntries fs.device) ∧
      fs' = { fs with device := replayed (activeEntries fs.device) fs.device } := by
  obtain ⟨hok, hfault⟩ := journalReplay_run fs
  constructor
  · intro h
    have hfits : ∀ e ∈ activeEntries fs.device, e.Fits := by
      by_contra hnot
      have hstop := hfault hnot
      rw [h] at hstop
      cases hstop
    rw [hok hfits, Prod.mk.injEq, Except.ok.injEq] at h
    exact ⟨hfits, h.1.symm, h.2.symm⟩
  · rintro ⟨hfits, rfl, rfl⟩
    exact hok hfits

theorem activeEntries_replayed (es : List JournalEntry) (d : Disk) :
    activeEntries (replayed es d) = activeEntries d := by
  have hblock : (replayed es d).block journalBlock = d.block journalBlock :=
    (replayed_outside es d).2 _ (by decide) (by decide)
  have hrange : (replayed es d).InRange journalBlock ↔ d.InRange journalBlock := by
    rw [InRange, InRange, totalSectors_replayed]
  unfold activeEntries
  simp only [hblock, hrange]

theorem replayed_twice {es : List JournalEntry} (hfits : ∀ e ∈ es, e.Fits) (d : Disk)
    (b : UInt32) : (replayed es (replayed es d)).block b = (replayed es d).block b := by
  by_cases htable : b = inodeTableBlock
  · subst htable
    apply table_ext
    · rw [slotHead_replayed hfits, slotHead_replayed hfits, applyUpdates_idem]
    · exact (replayed_outside es _).1
  · by_cases hbitmap : b = bitmapBlock
    · subst hbitmap
      apply ext
      intro k _
      rw [bitmap_replayed hfits, bitmap_replayed hfits, applyUpdates_idem]
    · exact (replayed_outside es _).2 b htable hbitmap

/-- Every byte that a replay writes already has the value of the last write to it. -/
structure ReplayAgrees (d : Disk) : Prop where
  fits : ∀ e ∈ activeEntries d, e.Fits
  inodes : ∀ id data, lastUpdate (inodeWrites (activeEntries d)) id = some data →
    slotHead (d.block inodeTableBlock) id = data
  bitmap : ∀ offset value, lastUpdate (bitmapWrites (activeEntries d)) offset = some value →
    (d.block bitmapBlock).get offset = value

theorem replay_unchanged_iff : (∃ n fs', journalReplay.run fs = (.ok n, fs') ∧
    fs'.device.block inodeTableBlock = fs.device.block inodeTableBlock ∧
    fs'.device.block bitmapBlock = fs.device.block bitmapBlock) ↔ ReplayAgrees fs.device := by
  constructor
  · rintro ⟨n, fs', hrun, htable, hbitmap⟩
    obtain ⟨hfits, -, rfl⟩ := journalReplay_ok_iff.mp hrun
    refine ⟨hfits, fun id => ?_, fun offset => ?_⟩
    · apply applyUpdates_eq_self_iff.mp
      rw [← slotHead_replayed hfits]
      exact congrArg (slotHead · id) htable
    · apply applyUpdates_eq_self_iff.mp
      rw [← bitmap_replayed hfits]
      exact congrArg (get · offset) hbitmap
  · intro h
    refine ⟨_, _, journalReplay_ok_iff.mpr ⟨h.fits, rfl, rfl⟩, ?_, ?_⟩
    · refine table_ext (funext fun id => ?_) (replayed_outside _ _).1
      rw [slotHead_replayed h.fits]
      exact applyUpdates_eq_self_iff.mpr (h.inodes id)
    · apply ext
      intro offset _
      rw [bitmap_replayed h.fits]
      exact applyUpdates_eq_self_iff.mpr (h.bitmap offset)

theorem replay_idempotent {fs' : ZiqaFs} (h : journalReplay.run fs = (.ok n, fs')) :
    ∃ fs'', journalReplay.run fs' = (.ok n, fs'') ∧
      ∀ b, fs''.device.block b = fs'.device.block b := by
  obtain ⟨hfits, rfl, rfl⟩ := journalReplay_ok_iff.mp h
  refine ⟨_, journalReplay_ok_iff.mpr ⟨?_, ?_, rfl⟩, fun b => ?_⟩
  · simpa only [activeEntries_replayed] using hfits
  · simp only [activeEntries_replayed]
  · simp only [activeEntries_replayed]
    exact replayed_twice hfits _ b

/-! What `link` commits -/

/-- The record that `link` commits for an inode. -/
def inodeRecord (id : UInt32) (x : Inode) : JournalEntry where
  op := opWriteInode
  block := id
  data :=
    let data : Image 56 := ofFn x.toBytes
    data.splice 52 4 (le32 (crc32 (data.slice 0 52)))

/-- The journal block after `journal_commit`. -/
def committedBlock (buf : Block) (id : UInt32) (x : Inode) : Block :=
  let head := u32At buf.get 4
  let entryOff := 64 + head.toNat % 63 * 64
  let data : Image 56 := ofFn x.toBytes
  let buf' := buf.splice entryOff 4 fun k => if k = 0 then opWriteInode else 0
  let buf' := buf'.splice (entryOff + 4) 4 (le32 id)
  let buf' := buf'.splice (entryOff + 8) 52 data.get
  let buf' := buf'.splice (entryOff + 60) 4 (le32 (crc32 (data.slice 0 52)))
  let buf' := buf'.splice 4 4 (le32 ((head + 1) % 63))
  buf'.splice 8 4 (le32 (u32At buf.get 8 + 1))

/-- The device after `link` has committed its record. -/
def afterCommit (d : Disk) (id : UInt32) (x : Inode) : Disk :=
  if d.InRange journalBlock ∧ u32At (d.block journalBlock).get 0 = journalMagic then
    d.setBlock journalBlock (committedBlock (d.block journalBlock) id x)
  else d

theorem payload_image (x : Inode) : (ofFn fun k =>
    ((List.range 56).map x.toBytes).getD k 0 : Image 56) = ofFn x.toBytes := by
  apply ext
  intro k hk
  simp [hk]

theorem attempt_journalCommit_run (id : UInt32) (x : Inode) (fs : ZiqaFs) :
    ∃ r, (attempt (journalCommit 3 id ((List.range 56).map x.toBytes))).run fs =
      (.ok r, { fs with device := afterCommit fs.device id x }) := by
  have hstate : ((journalCommit 3 id ((List.range 56).map x.toBytes)).run fs).2 =
      { fs with device := afterCommit fs.device id x } := by
    unfold journalCommit afterCommit
    by_cases hrange : fs.device.InRange journalBlock
    · rw [run_bind_of_ok (readBlock_run_ok hrange)]
      by_cases hmagic : u32At (fs.device.block journalBlock).get 0 = journalMagic
      · rw [if_neg (not_not_intro hmagic), if_pos ⟨hrange, hmagic⟩]
        simp only [writeBlock_run_ok hrange, payload_image]
        rfl
      · rw [if_pos hmagic, if_neg fun h => hmagic h.2]
        rfl
    · rw [if_neg fun h => hrange h.1]
      simp only [run_bind, run_readBlock, hrange, ↓reduceIte]
  exact ⟨_, Prod.ext rfl hstate⟩

/-- The inode that `link` is about to store when it commits. -/
structure LinkReaches (now srcId dstParent : UInt32) (name : Name) (fs : ZiqaFs)
    (x : Inode) : Prop where
  named : invalidName name = false
  source : ∃ y, loadInode fs.device srcId = .ok y ∧ y.mode ≠ inodeModeDir ∧
    x = { y with nlink := y.nlink + 1, ctime := now }
  absent : ∃ dir, loadInode fs.device dstParent = .ok dir ∧
    ((lookupInDir dir name).run fs).1 = .ok none

theorem lookupInDir_run_snd (dir : Inode) (name : Name) (fs : ZiqaFs) :
    ((lookupInDir dir name).run fs).2 = fs := by
  have hspec : Spec (· = fs) (lookupInDir dir name) (fun _ s => s = fs)
      fun _ s => s = fs := lookupInDir_spec
  rcases hrun : (lookupInDir dir name).run fs with ⟨e | a, s⟩
  · exact hspec.error fs e s rfl hrun
  · exact hspec.ok fs a s rfl hrun

theorem linkCommit_ok_iff {now srcId dstParent : UInt32} {name : Name} {x : Inode}
    {s : ZiqaFs} : (linkCommit now srcId dstParent name).run fs = (.ok x, s) ↔
      LinkReaches now srcId dstParent name fs x ∧
        s = { fs with device := afterCommit fs.device srcId x } := by
  unfold linkCommit
  constructor
  · intro h
    by_cases hname : invalidName name
    · simp [hname, err] at h
    · rw [if_neg hname, run_bind_eq_ok_iff] at h
      obtain ⟨y, fs1, hy, h⟩ := h
      rw [readInode_run, Prod.mk.injEq] at hy
      obtain ⟨hy, rfl⟩ := hy
      by_cases hdir : y.mode = inodeModeDir
      · simp [hdir, err] at h
      · rw [if_neg hdir, run_bind_eq_ok_iff] at h
        obtain ⟨dir, fs2, hd, h⟩ := h
        rw [readInode_run, Prod.mk.injEq] at hd
        obtain ⟨hd, rfl⟩ := hd
        rw [run_bind_eq_ok_iff] at h
        obtain ⟨found, fs3, hlook, h⟩ := h
        obtain rfl : fs3 = fs := by
          rw [← lookupInDir_run_snd dir name fs, hlook]
        cases found with
        | some t => simp [err] at h
        | none =>
          simp only [Option.isSome_none, Bool.false_eq_true, ↓reduceIte] at h
          obtain ⟨r, hcommit⟩ := attempt_journalCommit_run srcId
            { y with nlink := y.nlink + 1, ctime := now } fs3
          rw [run_bind_of_ok hcommit, run_pure, Prod.mk.injEq,
            Except.ok.injEq] at h
          obtain ⟨rfl, rfl⟩ := h
          refine ⟨⟨?_, ⟨y, hy, hdir, rfl⟩, ⟨dir, hd, ?_⟩⟩, rfl⟩
          · simpa using hname
          · rw [hlook]
  · rintro ⟨⟨hname, ⟨y, hy, hdir, rfl⟩, dir, hd, hlook⟩, rfl⟩
    have hlook' : (lookupInDir dir name).run fs = (.ok none, fs) :=
      Prod.ext hlook (lookupInDir_run_snd dir name fs)
    have hsource : (readInode srcId).run fs = (.ok y, fs) := by rw [readInode_run, hy]
    have htarget : (readInode dstParent).run fs = (.ok dir, fs) := by
      rw [readInode_run, hd]
    obtain ⟨r, hcommit⟩ := attempt_journalCommit_run srcId
      { y with nlink := y.nlink + 1, ctime := now } fs
    rw [hname, if_neg Bool.false_ne_true, run_bind_of_ok hsource, if_neg hdir,
      run_bind_of_ok htarget, run_bind_of_ok hlook']
    simp only [Option.isSome_none, Bool.false_eq_true, ↓reduceIte]
    rw [run_bind_of_ok hcommit]
    rfl

/-- The entries that a replay goes through after the commit: the record takes the slot
that the head of the journal points to. -/
def entriesAfterLink (d : Disk) (id : UInt32) (x : Inode) : List JournalEntry :=
  let buf := d.block journalBlock
  if d.InRange journalBlock ∧ u32At buf.get 0 = journalMagic ∧ u32At buf.get 8 + 1 ≠ 0 then
    (journalEntries buf).set ((u32At buf.get 4).toNat % 63) (inodeRecord id x)
  else []

section

variable (buf : Block) (id : UInt32) (x : Inode)

theorem committedBlock_header : u32At (committedBlock buf id x).get 0 = u32At buf.get 0 ∧
      u32At (committedBlock buf id x).get 8 = u32At buf.get 8 + 1 := by
  constructor
  · apply u32At_congr
    intro k hk
    unfold committedBlock
    simp only [get_splice]
    rw [if_neg (by omega), if_neg (by omega), if_neg (by omega), if_neg (by omega),
      if_neg (by omega), if_neg (by omega)]
  · apply u32At_eq
    intro k hk
    exact get_splice_inside _ _ hk (by omega)

theorem journalEntry_ext {e e' : JournalEntry} (hop : e.op = e'.op)
    (hblock : e.block = e'.block) (hdata : e.data = e'.data) : e = e' := by
  cases e
  cases e'
  congr

theorem get_committedBlock_outside {p : Nat} (hheader : 64 ≤ p)
    (hslot : p < 64 + (u32At buf.get 4).toNat % 63 * 64 ∨
      128 + (u32At buf.get 4).toNat % 63 * 64 ≤ p) :
    (committedBlock buf id x).get p = buf.get p := by
  unfold committedBlock
  simp only [get_splice]
  rw [if_neg (by omega), if_neg (by omega), if_neg (by omega), if_neg (by omega),
    if_neg (by omega), if_neg (by omega)]

theorem get_committedBlock_slot {k : Nat} (hk : k < 64) :
    (committedBlock buf id x).get (64 + 64 * ((u32At buf.get 4).toNat % 63) + k) =
      if k < 4 then (if k = 0 then opWriteInode else 0)
      else if k < 8 then le32 id (k - 4)
      else (inodeRecord id x).data.get (k - 8) := by
  have hlt := Nat.mod_lt (u32At buf.get 4).toNat (show 63 > 0 by omega)
  simp only [committedBlock, inodeRecord, Image.get_splice]
  generalize (u32At buf.get 4).toNat % 63 = slot at hlt ⊢
  generalize crc32 _ = sum
  rw [if_neg (by omega), if_neg (by omega)]
  by_cases hcrc : 60 ≤ k
  · rw [if_pos (by omega), if_neg (by omega), if_neg (by omega), if_pos (by omega)]
    exact congrArg _ (by omega)
  · rw [if_neg (by omega)]
    by_cases hdata : 8 ≤ k
    · rw [if_pos (by omega), if_neg (by omega), if_neg (by omega), if_neg (by omega)]
      exact congrArg _ (by omega)
    · rw [if_neg (by omega)]
      by_cases hblock : 4 ≤ k
      · rw [if_pos (by omega), if_neg (by omega), if_pos (by omega)]
        exact congrArg _ (by omega)
      · rw [if_neg (by omega), if_pos (by omega), if_pos (show k < 4 by omega)]
        exact if_congr (by omega) rfl rfl

theorem journalEntry_committedBlock (slot : Nat) (hslot : slot < 63) :
    journalEntry (committedBlock buf id x) slot =
      if slot = (u32At buf.get 4).toNat % 63 then inodeRecord id x
      else journalEntry buf slot := by
  split
  · next h =>
    subst h
    apply journalEntry_ext
    · exact get_committedBlock_slot buf id x (show 0 < 64 by omega)
    · apply u32At_eq
      intro k hk
      rw [Nat.add_assoc, get_committedBlock_slot buf id x (by omega),
        if_neg (by omega), if_pos (by omega), Nat.add_sub_cancel_left]
      rfl
    · apply ext
      intro k hk
      rw [journalEntry, get_ofFn, if_pos hk, Nat.add_assoc,
        get_committedBlock_slot buf id x (by omega), if_neg (by omega),
        if_neg (by omega), Nat.add_sub_cancel_left]
  · next h =>
    have hbyte : ∀ k < 64, (committedBlock buf id x).get (64 + 64 * slot + k) =
        buf.get (64 + 64 * slot + k) := by
      intro k hk
      exact get_committedBlock_outside buf id x (by omega) (by omega)
    apply journalEntry_ext
    · exact hbyte 0 (by omega)
    · apply u32At_congr
      intro k hk
      rw [Nat.add_assoc]
      exact hbyte (4 + k) (by omega)
    · apply ext
      intro k hk
      rw [journalEntry, journalEntry, get_ofFn, get_ofFn, if_pos hk,
        if_pos hk, Nat.add_assoc]
      exact hbyte (8 + k) (by omega)

end

theorem journalEntries_committedBlock (buf : Block) (id : UInt32) (x : Inode) :
    journalEntries (committedBlock buf id x) =
      (journalEntries buf).set ((u32At buf.get 4).toNat % 63) (inodeRecord id x) := by
  apply List.ext_getElem
  · simp [journalEntries]
  · intro slot hleft _
    have hslot : slot < 63 := by simpa [journalEntries] using hleft
    simp only [journalEntries, List.getElem_set, List.getElem_map, List.getElem_range,
      journalEntry_committedBlock _ _ _ _ hslot, eq_comm]

theorem activeEntries_afterCommit (d : Disk) (id : UInt32) (x : Inode) :
    activeEntries (afterCommit d id x) = entriesAfterLink d id x := by
  by_cases hcommit : d.InRange journalBlock ∧ u32At (d.block journalBlock).get 0 = journalMagic
  · obtain ⟨hzero, hcount⟩ := committedBlock_header (d.block journalBlock) id x
    rw [afterCommit, if_pos hcommit, activeEntries, block_setBlock_self, hzero,
      hcount, journalEntries_committedBlock]
    rfl
  · rw [afterCommit, if_neg hcommit, activeEntries, entriesAfterLink,
      if_neg fun h => hcommit ⟨h.1, h.2.1⟩, if_neg fun h => hcommit ⟨h.1, h.2.1⟩]

/-! The three promises of the journal -/

/-- What is expected of `journal_replay`: on a volume in use it changes no inode and no
bit of the bitmap, after a crash of `link` right behind its commit it brings the inode
back, and a second replay does nothing. -/
structure ReplayCorrect (now srcId dstParent : UInt32) (name : Name) (fs : ZiqaFs) : Prop where
  unchanged : ∃ n fs', journalReplay.run fs = (.ok n, fs') ∧
    fs'.device.block inodeTableBlock = fs.device.block inodeTableBlock ∧
    fs'.device.block bitmapBlock = fs.device.block bitmapBlock
  recovers : ∀ x s, (linkCommit now srcId dstParent name).run fs = (.ok x, s) →
    ∃ n s', journalReplay.run s = (.ok n, s') ∧ (readInode srcId).run s' = (.ok x.stamped, s')
  idempotent : ∀ n fs', journalReplay.run fs = (.ok n, fs') →
    ∃ fs'', journalReplay.run fs' = (.ok n, fs'') ∧ ∀ b, fs''.device.block b = fs'.device.block b

/-- The last record for the inode holds the first bytes of the inode as `write_inode`
stores it: with its new checksum, and with no CRC of the record over its blocks. -/
structure ReplayRestores (es : List JournalEntry) (id : UInt32) (x : Inode) : Prop where
  fits : ∀ e ∈ es, e.Fits
  last : lastUpdate (inodeWrites es) id = some (ofFn x.stamped.toBytes)

theorem toBytes_relinked (y : Inode) (nlink : UInt16) (now : UInt32) {k : Nat} (hk : 56 ≤ k) :
    ({ y with nlink := nlink, ctime := now } : Inode).stamped.toBytes k = y.toBytes k := by
  have hnlink : ¬ k < 8 := by omega
  have hctime : ¬ k < 24 := by omega
  have hsum : ¬ k < 4 := by omega
  simp only [Inode.toBytes, Inode.stamped, hnlink, hctime, hsum, ↓reduceIte]

theorem toBytes_slotInode (table : Block) (id : UInt32) {k : Nat} (hk : k < 136) :
    (slotInode table id).toBytes k = table.get (id.toNat * 136 + k) :=
  Inode.toBytes_ofBytes (fun k => table.get (id.toNat * 136 + k)) hk

theorem slotInode_eq_iff {table : Block} {id : UInt32} {x : Inode}
    (htail : ∀ k, 56 ≤ k → k < 136 → table.get (id.toNat * 136 + k) = x.toBytes k) :
    slotInode table id = x ↔ slotHead table id = ofFn x.toBytes := by
  constructor
  · rintro rfl
    apply ext
    intro k hk
    rw [slotHead, get_ofFn, get_ofFn, if_pos hk, if_pos hk]
    exact (toBytes_slotInode table id (Nat.lt_trans hk (by omega))).symm
  · intro hhead
    apply Inode.ofBytes_eq
    intro k hk
    by_cases hlow : k < 56
    · have hbyte := congrArg (fun image : Image 56 => image.get k) hhead
      simpa only [slotHead, get_ofFn, hlow, ↓reduceIte] using hbyte
    · exact htail k (Nat.not_lt.mp hlow) hk

theorem totalSectors_afterCommit (d : Disk) (id : UInt32) (x : Inode) :
    (afterCommit d id x).totalSectors = d.totalSectors := by
  unfold afterCommit
  split <;> rfl

theorem table_afterCommit (d : Disk) (id : UInt32) (x : Inode) :
    (afterCommit d id x).block inodeTableBlock = d.block inodeTableBlock := by
  unfold afterCommit
  split
  · exact block_setBlock_ne _ _ (by decide)
  · rfl

theorem nlink_ofFn_toBytes {x y : Inode}
    (h : (ofFn x.toBytes : Image 56) = ofFn y.toBytes) : x.nlink = y.nlink := by
  have hx : u16At (ofFn x.toBytes : Image 56).get 6 = x.nlink := by
    apply u16At_eq
    intro k hk
    rw [Image.get_ofFn, if_pos (by omega)]
    interval_cases k <;> rfl
  have hy : u16At (ofFn y.toBytes : Image 56).get 6 = y.nlink := by
    apply u16At_eq
    intro k hk
    rw [Image.get_ofFn, if_pos (by omega)]
    interval_cases k <;> rfl
  rw [← hx, ← hy, h]

/-- The replay after the crash reads the inode back exactly when the last record for it
is its beginning. -/
theorem recovers_iff {now srcId dstParent : UInt32} {name : Name} {x : Inode}
    (hlink : LinkReaches now srcId dstParent name fs x) {s : ZiqaFs}
    (hs : s = { fs with device := afterCommit fs.device srcId x }) :
    (∃ n s', journalReplay.run s = (.ok n, s') ∧ (readInode srcId).run s' = (.ok x.stamped, s')) ↔
    ReplayRestores (entriesAfterLink fs.device srcId x) srcId x := by
  subst hs
  obtain ⟨y, hy, -, hx⟩ := hlink.source
  obtain ⟨hid, hfit, hrange, hslot, -⟩ := loadInode_eq_ok_iff.mp hy
  have hactive := activeEntries_afterCommit fs.device srcId x
  generalize hes : entriesAfterLink fs.device srcId x = es at hactive ⊢
  -- The table after the replay, whatever the entries are.
  have hread : (readInode srcId).run
        { fs with device := replayed es (afterCommit fs.device srcId x) } =
          (.ok x.stamped, { fs with
            device := replayed es (afterCommit fs.device srcId x) }) ↔
      slotHead ((replayed es (afterCommit fs.device srcId x)).block inodeTableBlock) srcId =
        ofFn x.stamped.toBytes := by
    have hrange' : (replayed es (afterCommit fs.device srcId x)).InRange inodeTableBlock := by
      rw [InRange, totalSectors_replayed, totalSectors_afterCommit]
      exact hrange
    rw [← slotInode_eq_iff, readInode_run, Prod.mk.injEq, loadInode_eq_ok_iff]
    · constructor
      · rintro ⟨⟨-, -, -, h, -⟩, -⟩
        exact h.symm
      · intro h
        exact ⟨⟨hid, hfit, hrange', h.symm, rfl⟩, rfl⟩
    · intro k hk hk'
      have hmod : 56 ≤ (srcId.toNat * 136 + k) % 136 := by omega
      rw [(replayed_outside es _).1 _ hmod, table_afterCommit, hx, toBytes_relinked _ _ _ hk, hslot]
      exact (toBytes_slotInode _ _ hk').symm
  have hold : slotHead (fs.device.block inodeTableBlock) srcId = ofFn y.toBytes := by
    rw [← slotInode_eq_iff]
    · exact hslot.symm
    · intro k _ hk
      rw [hslot]
      exact (toBytes_slotInode _ _ hk).symm
  constructor
  · rintro ⟨n, s', hreplay, hback⟩
    obtain ⟨hfits, -, rfl⟩ := journalReplay_ok_iff.mp hreplay
    simp only [hactive] at hfits hback
    refine ⟨hfits, ?_⟩
    rw [hread, slotHead_replayed hfits, table_afterCommit, applyUpdates_eq] at hback
    cases hlast : lastUpdate (inodeWrites es) srcId with
    | some data =>
      rw [hlast, Option.getD_some] at hback
      rw [hback]
    | none =>
      rw [hlast, Option.getD_none, hold] at hback
      have hnlink := nlink_ofFn_toBytes hback
      rw [hx] at hnlink
      exact absurd hnlink (by simp [Inode.stamped])
  · intro h
    refine ⟨_, _, journalReplay_ok_iff.mpr ⟨hactive ▸ h.fits, rfl, rfl⟩, ?_⟩
    simp only [hactive]
    rw [hread, slotHead_replayed h.fits, applyUpdates_eq, h.last, Option.getD_some]

/-- `journal_replay` keeps its promises on a volume, and for a crash of a `link` on it,
exactly when what the journal holds is what the tables hold, and the record that the
link commits begins like the inode that it stores. -/
theorem journalReplay_correct_iff (now srcId dstParent : UInt32) (name : Name)
    (fs : ZiqaFs) : ReplayCorrect now srcId dstParent name fs ↔
      ReplayAgrees fs.device ∧ ∀ x, LinkReaches now srcId dstParent name fs x →
        ReplayRestores (entriesAfterLink fs.device srcId x) srcId x := by
  constructor
  · intro h
    refine ⟨replay_unchanged_iff.mp h.unchanged, fun x hlink => ?_⟩
    exact (recovers_iff hlink rfl).mp (h.recovers x _ (linkCommit_ok_iff.mpr ⟨hlink, rfl⟩))
  · rintro ⟨hagrees, hrestores⟩
    refine ⟨replay_unchanged_iff.mpr hagrees, fun x s hrun => ?_, fun _ _ => replay_idempotent⟩
    obtain ⟨hlink, hs⟩ := linkCommit_ok_iff.mp hrun
    exact (recovers_iff hlink hs).mpr (hrestores x hlink)

def volumeLinked : ZiqaFs := ((link 0 2 1 [98]).run volumeCreated).2

/-- The replay of the record of a link that had long completed makes the file unreadable:
the record holds the checksum of the inode before the link. -/
theorem volumeLinked_damaged : (((link 0 2 1 [98]).run volumeCreated).1.isOk &&
      ((readInode 2).run volumeLinked).1.isOk &&
      (journalReplay.run volumeLinked).1.isOk &&
      !((readInode 2).run (journalReplay.run volumeLinked).2).1.isOk) = true ∧
    ¬ ReplayCorrect 0 2 1 [99] volumeLinked := by
  have hruns : (((link 0 2 1 [98]).run volumeCreated).1.isOk &&
      ((readInode 2).run volumeLinked).1.isOk &&
      (journalReplay.run volumeLinked).1.isOk &&
      !((readInode 2).run (journalReplay.run volumeLinked).2).1.isOk) = true := by
    decide +kernel
  refine ⟨hruns, fun h => ?_⟩
  obtain ⟨n, fs', hrun, htable, -⟩ := h.unchanged
  have hsec : fs'.device.totalSectors = volumeLinked.device.totalSectors := by
    obtain ⟨-, -, rfl⟩ := journalReplay_ok_iff.mp hrun
    exact totalSectors_replayed _ _
  rw [hrun, readInode_run, readInode_run, loadInode_congr hsec htable] at hruns
  cases hload : (loadInode volumeLinked.device 2).isOk with
  | true => simp [hload] at hruns
  | false => simp [hload] at hruns

end ZiqaKernel
