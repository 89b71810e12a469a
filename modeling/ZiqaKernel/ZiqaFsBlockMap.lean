/-
The block map of an inode as a function of the device: what `inode_get_block`
answers, which block references it follows, and on which blocks the answer
depends.
-/
import ZiqaKernel.ExclusiveRefs
import ZiqaKernel.ZiqaFsFile

namespace ZiqaKernel

open Disk

variable {d d' : Disk} {b stored : UInt32}

namespace Disk

def load (d : Disk) (b : UInt32) : Except Failure Block :=
  if d.InRange b then .ok (d.block b) else .error (.error .outOfBounds)

/-- The outcome of following entry `idx` of the pointer block `b`: block number
zero points nowhere, and the checksum is tested before the entry is used. -/
def follow (d : Disk) (b stored : UInt32) (message : String) (idx : Nat) :
    Except Failure (UInt32 × UInt32) :=
  if b = 0 then .ok (0, 0)
  else if d.InRange b then
    if checksumMatches stored (d.block b) then .ok (ptr (d.block b) idx)
    else .error (.error (.other message))
  else .error (.error .outOfBounds)

/-- Word `w` of the pointer block `b`; block number zero points nowhere. -/
def wordOf (d : Disk) (b : UInt32) (w : Nat) : UInt32 :=
  if b = 0 then 0 else (d.block b).word w

@[simp]
theorem wordOf_zero (d : Disk) (w : Nat) : d.wordOf 0 w = 0 := by
  simp [wordOf]

theorem wordOf_of_ne (h : b ≠ 0) (w : Nat) : d.wordOf b w = (d.block b).word w := by
  rw [wordOf, if_neg h]

theorem wordOf_congr (h : b ≠ 0 → d'.block b = d.block b) (w : Nat) :
    d'.wordOf b w = d.wordOf b w := by
  by_cases hb : b = 0
  · simp [hb]
  · rw [wordOf_of_ne hb, wordOf_of_ne hb, h hb]

theorem inRange_congr (h : d'.totalSectors = d.totalSectors)
    (b : UInt32) : d'.InRange b ↔ d.InRange b := by
  rw [InRange, InRange, h]

theorem load_congr (hsec : d'.totalSectors = d.totalSectors)
    (hblock : d'.block b = d.block b) : d'.load b = d.load b := by
  simp only [load, inRange_congr hsec b, hblock]

theorem follow_congr {message : String} {idx : Nat} (hsec : d'.totalSectors = d.totalSectors)
    (hblock : b ≠ 0 → d'.block b = d.block b) :
    d'.follow b stored message idx = d.follow b stored message idx := by
  by_cases hb : b = 0
  · simp [follow, hb]
  · simp only [follow, hb, ↓reduceIte, inRange_congr hsec b, hblock hb]

/-- A pointer block can be followed when it lies on the device and matches
its checksum. -/
def Followable (d : Disk) (b stored : UInt32) : Prop :=
  b ≠ 0 → d.InRange b ∧ checksumMatches stored (d.block b) = true

theorem follow_of_followable (h : d.Followable b stored) (message : String) (idx : Nat) :
    d.follow b stored message idx = .ok (d.wordOf b (2 * idx), d.wordOf b (2 * idx + 1)) := by
  by_cases hb : b = 0
  · simp [follow, hb]
  · obtain ⟨hrange, hsum⟩ := h hb
    simp [follow, hb, hrange, hsum, wordOf, ptr]

theorem follow_eq_ok_iff {message : String} {idx : Nat} {p : UInt32 × UInt32} :
    d.follow b stored message idx = .ok p ↔ d.Followable b stored ∧
        p = (d.wordOf b (2 * idx), d.wordOf b (2 * idx + 1)) := by
  constructor
  · intro h
    have hfollow : d.Followable b stored := by
      intro hb
      by_cases hrange : d.InRange b
      · refine ⟨hrange, ?_⟩
        by_contra hsum
        simp [follow, hb, hrange, hsum] at h
      · simp [follow, hb, hrange] at h
    rw [follow_of_followable hfollow] at h
    exact ⟨hfollow, (Except.ok.inj h).symm⟩
  · rintro ⟨hfollow, rfl⟩
    exact follow_of_followable hfollow message idx

end Disk

theorem readBlock_run (b : UInt32) (fs : ZiqaFs) :
    (readBlock b).run fs = (fs.device.load b, fs) := by
  rw [run_readBlock, load]
  by_cases h : fs.device.InRange b <;> simp [h]

/-- The outcome of following entry `idx` of the blocks behind the
double-indirect block `b`. -/
def Disk.followDouble (d : Disk) (b stored : UInt32) (idx : Nat) :
    Except Failure (UInt32 × UInt32) :=
  match d.follow b stored "Double indirect block checksum mismatch" (idx / 512) with
  | .error e => .error e
  | .ok l1 =>
    d.follow l1.1 l1.2 "L2 pointer block checksum mismatch" (idx % 512)

/-- The outcome of `inode_get_block`, which leaves the volume as it is. -/
def blockMap (d : Disk) (x : Inode) (l : Nat) : Except Failure (UInt32 × UInt32) :=
  if h : l < 10 then .ok (x.blocks ⟨l, h⟩, x.blockChecksums ⟨l, h⟩)
  else if l - 10 < 512 then
    d.follow x.indirect x.indirectChecksum "Indirect block checksum mismatch" (l - 10)
  else if l - 10 - 512 < 512 * 512 then
    d.followDouble x.doubleIndirect x.doubleIndirectChecksum (l - 10 - 512)
  else .error (.error (.other "File too large"))

/-- Reading a pointer block and testing its checksum, as the source spells
it out at each of the three levels. -/
theorem follow_run {α : Type} (b stored : UInt32) (message : String)
    (idx : Nat) (next : UInt32 × UInt32 → FsM α) (fs : ZiqaFs) (hb : b ≠ 0) :
    (do
      let buf ← readBlock b
      if checksumMatches stored buf then next (ptr buf idx)
      else err (.other message) : FsM α).run fs =
      match fs.device.follow b stored message idx with
      | .ok p => (next p).run fs
      | .error e => (.error e, fs) := by
  rw [Fallible.run_bind, run_readBlock, Disk.follow, if_neg hb]
  by_cases hrange : fs.device.InRange b
  · by_cases h : checksumMatches stored (fs.device.block b) <;>
      simp [hrange, h, err]
  · simp [hrange]

theorem inodeGetBlock_run (x : Inode) (l : Nat) (fs : ZiqaFs) :
    (inodeGetBlock x l).run fs = (blockMap fs.device x l, fs) := by
  unfold inodeGetBlock blockMap
  by_cases hdirect : l < 10
  · simp [hdirect]
  by_cases hsingle : l - 10 < 512
  · simp only [hdirect, ↓reduceDIte, hsingle, ↓reduceIte]
    by_cases hind : x.indirect = 0
    · simp [hind, Disk.follow]
    · rw [if_neg hind, follow_run x.indirect _ _ (l - 10) pure fs hind]
      cases fs.device.follow x.indirect x.indirectChecksum
        "Indirect block checksum mismatch" (l - 10) <;> rfl
  by_cases hdouble : l - 10 - 512 < 512 * 512
  · simp only [hdirect, ↓reduceDIte, hsingle, ↓reduceIte, hdouble, followDouble]
    by_cases hdbl : x.doubleIndirect = 0
    · simp [hdbl, Disk.follow]
    · rw [if_neg hdbl, follow_run x.doubleIndirect x.doubleIndirectChecksum
        "Double indirect block checksum mismatch" ((l - 10 - 512) / 512)
        (fun l1 => if l1.1 = 0 then pure (0, 0) else do
          let buf2 ← readBlock l1.1
          if checksumMatches l1.2 buf2 then
            pure (ptr buf2 ((l - 10 - 512) % 512))
          else err (.other "L2 pointer block checksum mismatch")) fs hdbl]
      cases fs.device.follow x.doubleIndirect x.doubleIndirectChecksum
          "Double indirect block checksum mismatch" ((l - 10 - 512) / 512) with
      | error e => rfl
      | ok l1 =>
        by_cases hl1 : l1.1 = 0
        · simp [hl1, Disk.follow]
        · simp only [hl1, ↓reduceIte]
          rw [follow_run l1.1 l1.2 _ ((l - 10 - 512) % 512) pure fs hl1]
          cases fs.device.follow l1.1 l1.2
            "L2 pointer block checksum mismatch" ((l - 10 - 512) % 512) <;>
            rfl
  · simp [hdirect, hsingle, hdouble, err]

/-- A place where an inode or one of its pointer blocks may name a block.
Word positions past the end of a block read as zero. -/
inductive Slot where
  | direct (i : Fin 10)
  | indirect
  | double
  | single (w : Nat)
  | level1 (w : Nat)
  | level2 (w v : Nat)
deriving DecidableEq

def refAt (d : Disk) (x : Inode) : Slot → UInt32
  | .direct i => x.blocks i
  | .indirect => x.indirect
  | .double => x.doubleIndirect
  | .single w => d.wordOf x.indirect w
  | .level1 w => d.wordOf x.doubleIndirect w
  | .level2 w v => d.wordOf (d.wordOf x.doubleIndirect w) v

/-- The slot that holds the data block of logical block `l`, for a logical
block that the map can address. -/
def dataSlot (l : Nat) : Slot :=
  if h : l < 10 then .direct ⟨l, h⟩
  else if l - 10 < 512 then .single (2 * (l - 10))
  else .level2 (2 * ((l - 10 - 512) / 512)) (2 * ((l - 10 - 512) % 512))

theorem dataSlot_injective {k l : Nat} (h : dataSlot k = dataSlot l) : k = l := by
  unfold dataSlot at h
  split_ifs at h <;> simp at h <;> omega

def Slot.isPointer : Slot → Bool
  | .indirect | .double | .level1 _ => true
  | .direct _ | .single _ | .level2 _ _ => false

theorem isPointer_dataSlot (l : Nat) : (dataSlot l).isPointer = false := by
  unfold dataSlot
  split_ifs <;> rfl

theorem Disk.followDouble_eq_ok_iff {idx : Nat} {p : UInt32 × UInt32} :
    d.followDouble b stored idx = .ok p ↔ d.Followable b stored ∧
        d.follow (d.wordOf b (2 * (idx / 512))) (d.wordOf b (2 * (idx / 512) + 1))
          "L2 pointer block checksum mismatch" (idx % 512) = .ok p := by
  unfold followDouble
  constructor
  · intro h
    cases hl : d.follow b stored "Double indirect block checksum mismatch" (idx / 512) with
    | error e => simp [hl] at h
    | ok q =>
      obtain ⟨hfollow, rfl⟩ := follow_eq_ok_iff.mp hl
      rw [hl] at h
      exact ⟨hfollow, h⟩
  · rintro ⟨hfollow, h⟩
    rw [follow_of_followable hfollow]
    exact h

theorem Disk.followDouble_congr {idx : Nat} (hsec : d'.totalSectors = d.totalSectors)
    (hblock : b ≠ 0 → d'.block b = d.block b)
    (hl1 : ∀ k, d.wordOf b (2 * k) ≠ 0 →
      d'.block (d.wordOf b (2 * k)) = d.block (d.wordOf b (2 * k))) :
    d'.followDouble b stored idx = d.followDouble b stored idx := by
  unfold followDouble
  rw [follow_congr hsec hblock]
  cases hl : d.follow b stored "Double indirect block checksum mismatch" (idx / 512) with
  | error e => rfl
  | ok p =>
    obtain ⟨-, rfl⟩ := follow_eq_ok_iff.mp hl
    exact follow_congr hsec (hl1 (idx / 512))

theorem blockMap_congr {x : Inode} {l : Nat} (hsec : d'.totalSectors = d.totalSectors)
    (hind : x.indirect ≠ 0 → d'.block x.indirect = d.block x.indirect)
    (hdbl : x.doubleIndirect ≠ 0 → d'.block x.doubleIndirect = d.block x.doubleIndirect)
    (hl1 : ∀ k, refAt d x (.level1 (2 * k)) ≠ 0 → d'.block (refAt d x (.level1 (2 * k))) =
        d.block (refAt d x (.level1 (2 * k)))) :
    blockMap d' x l = blockMap d x l := by
  unfold blockMap
  rw [follow_congr hsec hind, followDouble_congr hsec hdbl hl1]

theorem blockMap_eq_ok {x : Inode} {l : Nat} {p : UInt32 × UInt32} (h : blockMap d x l = .ok p) :
    p.1 = refAt d x (dataSlot l) ∧ l < maxBlocks := by
  unfold blockMap at h
  unfold dataSlot
  rw [maxBlocks]
  split_ifs at h with hdirect hsingle hdouble
  · rw [Except.ok.injEq] at h
    rw [dif_pos hdirect, ← h]
    exact ⟨rfl, by omega⟩
  · rw [dif_neg hdirect, if_pos hsingle, (follow_eq_ok_iff.mp h).2]
    exact ⟨rfl, by omega⟩
  · rw [dif_neg hdirect, if_neg hsingle]
    obtain ⟨-, h⟩ := followDouble_eq_ok_iff.mp h
    rw [(follow_eq_ok_iff.mp h).2]
    exact ⟨rfl, by omega⟩

end ZiqaKernel
