/-
A file as a vector of bytes: what successful writes and truncations of one file
do to what can be read from it.
-/
import ZiqaKernel.ByteVector
import ZiqaKernel.ZiqaFsRuns

namespace ZiqaKernel

open Fallible Disk

variable {fs fs' s : ZiqaFs} {d : Disk} {x y : Inode} {id now b : UInt32}
  {buf : Block} {k l n newSize : Nat} {u : Unit}

section

theorem blockMap_setData (hx : OwnTree fs x) (hb : DataBlockOf fs x b) :
    blockMap (fs.device.setBlock b buf) x k = blockMap fs.device x k := by
  have hkeep := fun s => pointer_setData hx hb buf (s := s)
  exact blockMap_congr rfl (hkeep .indirect rfl (wordLayout.indirect _))
    (hkeep .double rfl (wordLayout.double _)) fun k =>
      hkeep (.level1 (2 * k)) rfl (wordLayout.level1 _ k)

variable {p : UInt32 × UInt32}

theorem contents_setData_ne (hx : OwnTree fs x)
    (hmap : blockMap fs.device x l = .ok p) (hp : p.1 ≠ 0) (hne : k ≠ l) :
    contents (fs.device.setBlock p.1 buf) x k = contents fs.device x k := by
  refine contents_congr rfl (blockMap_setData hx (.of_blockMap hmap hp))
    fun hzero => block_setBlock_ne _ _ ?_
  rw [(blockMap_eq_ok hmap).1]
  exact hx.refAt_ne (wordLayout.dataSlot _ k) (wordLayout.dataSlot _ l) hzero
    fun heq => hne (dataSlot_injective heq)

theorem contents_setData_self (hx : OwnTree fs x)
    (hmap : blockMap fs.device x l = .ok p) (hp : p.1 ≠ 0)
    (hrange : fs.device.InRange p.1) :
    contents (fs.device.setBlock p.1 buf) x l = .ok (some buf) := by
  unfold contents
  rw [blockMap_setData hx (.of_blockMap hmap hp), hmap]
  simp only [hp, ↓reduceIte]
  have hrange' : (fs.device.setBlock p.1 buf).InRange p.1 := hrange
  rw [load, if_pos hrange', block_setBlock_self]
  rfl

/-- Whatever is written to the indirect block, the directly named blocks are
read as before. -/
theorem contents_setIndirect (hx : OwnTree fs x) (hk : k < 10) :
    contents (fs.device.setBlock x.indirect buf) x k = contents fs.device x k := by
  have hslot : dataSlot k = .direct ⟨k, hk⟩ := dif_pos hk
  refine contents_congr rfl ?_ fun hzero => block_setBlock_ne _ _ ?_
  · rw [blockMap, blockMap, dif_pos hk, dif_pos hk]
  · rw [hslot] at hzero ⊢
    have hne := Exclusive.refAt_ne hx (wordLayout.direct _ _) (wordLayout.indirect _) hzero
    exact hne (by simp)

/-- The first `n` blocks of the file read as before. -/
structure Trimmed (fs s : ZiqaFs) (x : Inode) (n : Nat) : Prop where
  kept : Kept fs s x x
  contents : ∀ k < n, contents s.device x k = ZiqaKernel.contents fs.device x k

theorem Trimmed.setBlock (h : Trimmed fs s x n)
    (hkept : Kept s { s with device := s.device.setBlock b buf } x x)
    (hcontents : ∀ k < n, ZiqaKernel.contents (s.device.setBlock b buf) x k =
      ZiqaKernel.contents s.device x k) :
    Trimmed fs { s with device := s.device.setBlock b buf } x n :=
  ⟨h.kept.trans hkept, fun k hk => (hcontents k hk).trans (h.contents k hk)⟩

theorem truncateRound_ok (h : (truncateRound x l).run s = (.ok u, fs')) :
    ∃ p, blockMap s.device x l = .ok p ∧ (fs' = s ∨ (l < 10 ∧ p.1 ≠ 0 ∧ ∃ buf,
        fs' = { s with device := s.device.setBlock p.1 buf }) ∨
      (10 ≤ l ∧ p.1 ≠ 0 ∧ l - 10 < 1024 ∧ x.indirect ≠ 0 ∧ fs' = { s with
          device := s.device.setBlock x.indirect
            ((s.device.block x.indirect).setWord (l - 10) 0) })) := by
  rw [truncateRound, run_bind_eq_ok_iff] at h
  obtain ⟨p, s0, hget, h⟩ := h
  rw [inodeGetBlock_run, Prod.mk.injEq] at hget
  obtain ⟨hmap, rfl⟩ := hget
  refine ⟨p, hmap, ?_⟩
  by_cases hp : p.1 ≠ 0
  · simp only [hp, ↓reduceIte, ne_eq, not_false_eq_true] at h
    rw [run_bind_eq_ok_iff] at h
    obtain ⟨buf, s1, hread, h⟩ := h
    obtain ⟨-, -, rfl⟩ := readBlock_eq_ok_iff.mp hread
    split_ifs at h with hl hidx
    · obtain ⟨-, rfl⟩ := writeBlock_eq_ok_iff.mp h
      exact Or.inr (Or.inl ⟨hl, hp, buf, rfl⟩)
    · rw [run_bind_eq_ok_iff] at h
      obtain ⟨words, s2, hread2, h⟩ := h
      obtain ⟨-, rfl, rfl⟩ := readBlock_eq_ok_iff.mp hread2
      obtain ⟨-, rfl⟩ := writeBlock_eq_ok_iff.mp h
      exact Or.inr (Or.inr ⟨by omega, hp, hidx.1, hidx.2, rfl⟩)
    · rw [run_pure_eq_ok_iff] at h
      exact Or.inl h.2.symm
  · simp only [hp, ↓reduceIte, run_pure, Prod.mk.injEq] at h
    exact Or.inl h.2.symm

/-- Rounds behind the first `n ≤ 10` blocks: a direct block is written back, and
writing to the indirect block does not touch direct blocks. -/
theorem truncateRound_direct (hn : n ≤ 10) (hl : n ≤ l)
    (htrim : Trimmed fs s x n) (h : (truncateRound x l).run s = (.ok u, fs')) :
    Trimmed fs fs' x n := by
  have hx := htrim.kept.ownTree
  obtain ⟨p, hmap, rfl | ⟨-, hp, buf, rfl⟩ | ⟨-, -, hidx, hind, rfl⟩⟩ :=
    truncateRound_ok h
  · exact htrim
  · exact htrim.setBlock (Kept.setData hx (.of_blockMap hmap hp) buf)
      fun k hk => contents_setData_ne hx hmap hp (by omega)
  · exact htrim.setBlock (Kept.clearWord hx hidx hind)
      fun k hk => contents_setIndirect hx (by omega)

structure Untouched (fs s : ZiqaFs) (x : Inode) : Prop where
  kept : Kept fs s x x
  same : SameTree wordLayout fs.device s.device x

theorem truncateRound_idle (hl : 10 ≤ l) (hidle : l < 1034 → contents fs.device x l = .ok none ∨
      fs.device.wordOf x.indirect (l - 10) = 0)
    (hun : Untouched fs s x) (h : (truncateRound x l).run s = (.ok u, fs')) :
    Untouched fs fs' x := by
  have hx := hun.kept.ownTree
  obtain ⟨p, hmap, rfl | ⟨hlt, -⟩ | ⟨-, hp, hidx, hind, rfl⟩⟩ := truncateRound_ok h
  · exact hun
  · omega
  have hword : (s.device.block x.indirect).word (l - 10) = 0 := by
    rcases hidle (by omega) with hnone | hzero
    · rw [← hun.same.contents_eq, contents, hmap] at hnone
      simp only [hp, ↓reduceIte] at hnone
      obtain ⟨c, -, hc⟩ := Except.map_eq_ok hnone
      cases hc
    · rw [← wordOf_of_ne hind, wordOf_congr, hzero]
      exact hun.same.keeps_refAt (s := .indirect) (wordLayout.indirect _)
  refine ⟨hun.kept.trans (Kept.clearWord hx hidx hind), hun.same.trans ⟨rfl, ?_⟩⟩
  intro t _
  rw [Image.setWord_eq_self hword]
  by_cases hb : tree wordLayout s.device x t = x.indirect
  · rw [hb, block_setBlock_self]
  · exact block_setBlock_ne _ _ hb

/-- What `truncate` needs in order to leave the bytes below the new size: bytes
that come into the file are there and are zero, and no word of the indirect
block that matters is cleared. -/
structure TruncateFits (d : Disk) (x : Inode) (newSize : Nat) : Prop where
  zeros : ∀ p, x.size.toNat ≤ p → p < newSize → byteAt (contents d x) p = some 0
  words : blocksFor newSize ≤ 10 ∨ ∀ l, blocksFor newSize ≤ l →
    l < blocksFor x.size.toNat → l < 1034 →
      contents d x l = .ok none ∨ d.wordOf x.indirect (l - 10) = 0

theorem truncateRounds_trimmed {count : Nat} (hx : OwnTree fs x)
    (hwords : n ≤ 10 ∨ ∀ l, n ≤ l → l < n + count → l < 1034 →
      contents fs.device x l = .ok none ∨ fs.device.wordOf x.indirect (l - 10) = 0)
    (h : ((List.range' n count).forM (truncateRound x)).run fs = (.ok u, fs')) :
    Trimmed fs fs' x n := by
  by_cases hn : n ≤ 10
  · have hstart : Trimmed fs fs x n := ⟨Kept.refl hx, fun _ _ => rfl⟩
    refine (Spec.forM (I := fun s => Trimmed fs s x n) (E := fun _ _ => True) _
      fun l hl => ⟨fun s u s' htrim h => ?_, fun _ _ _ _ _ => trivial⟩).ok
        _ _ _ hstart h
    exact truncateRound_direct hn (List.left_le_of_mem_range' hl) htrim h
  · have hall := hwords.resolve_left hn
    have hstart : Untouched fs fs x := ⟨Kept.refl hx, ⟨rfl, fun _ _ => rfl⟩⟩
    have hend : Untouched fs fs' x := by
      refine (Spec.forM (I := fun s => Untouched fs s x) (E := fun _ _ => True) _
        fun l hl => ⟨fun s u s' hun h => ?_, fun _ _ _ _ _ => trivial⟩).ok
          _ _ _ hstart h
      rw [List.mem_range'_1] at hl
      exact truncateRound_idle (by omega) (hall l hl.1 hl.2) hun h
    exact ⟨hend.kept, fun k _ => by rw [hend.same.contents_eq]⟩

theorem zeroTail_ok (h : (zeroTail x newSize).run s = (.ok u, fs')) :
    fs' = s ∨ ∃ p, newSize % 4096 ≠ 0 ∧
      blockMap s.device x (logicalOf (newSize - 1)) = .ok p ∧ p.1 ≠ 0 ∧
      s.device.InRange p.1 ∧ fs' = { s with
        device := s.device.setBlock p.1 ((s.device.block p.1).splice
          (newSize % 4096) (4096 - newSize % 4096) fun _ => 0) } := by
  unfold zeroTail at h
  split_ifs at h with htail
  · rw [run_bind_eq_ok_iff] at h
    obtain ⟨p, s0, hget, h⟩ := h
    rw [inodeGetBlock_run, Prod.mk.injEq] at hget
    obtain ⟨hmap, rfl⟩ := hget
    by_cases hp : p.1 ≠ 0
    · simp only [hp, ↓reduceIte, ne_eq, not_false_eq_true] at h
      rw [run_bind_eq_ok_iff] at h
      obtain ⟨buf, s1, hread, h⟩ := h
      obtain ⟨hrange, rfl, rfl⟩ := readBlock_eq_ok_iff.mp hread
      obtain ⟨-, rfl⟩ := writeBlock_eq_ok_iff.mp h
      exact Or.inr ⟨p, htail.2, hmap, hp, hrange, rfl⟩
    · simp only [hp, ↓reduceIte, run_pure, Prod.mk.injEq] at h
      exact Or.inl h.2.symm
  · rw [run_pure_eq_ok_iff] at h
    exact Or.inl h.2.symm

theorem zeroTail_byteAt (hx : OwnTree s x) (hmax : newSize < 2 ^ 32)
    (h : (zeroTail x newSize).run s = (.ok u, fs')) {q : Nat} {c : UInt8}
    (hq : q < newSize) (hbyte : byteAt (contents s.device x) q = some c) :
    byteAt (contents fs'.device x) q = some c := by
  obtain rfl | ⟨p, htail, hmap, hp, hrange, rfl⟩ := zeroTail_ok h
  · exact hbyte
  rw [logicalOf_of_lt (by omega)] at hmap
  obtain ⟨old, hold, hget⟩ := exists_of_byteAt hbyte
  by_cases hdiv : q / 4096 = (newSize - 1) / 4096
  · have hblock : old = s.device.block p.1 := by
      rw [hdiv, contents, hmap] at hold
      simp only [hp, ↓reduceIte, load, hrange] at hold
      exact (Option.some.inj (Except.ok.inj hold)).symm
    rw [byteAt_of_contents (hdiv ▸ contents_setData_self hx hmap hp hrange),
      Image.get_splice_outside _ _ (by omega), ← hblock, hget]
  · rw [byteAt_of_contents ((contents_setData_ne hx hmap hp hdiv).trans hold), hget]

/-- The inode that `truncate` stores. -/
def resized (x : Inode) (now : UInt32) (newSize : Nat) : Inode :=
  { x with size := UInt32.ofNat newSize, mtime := now }

theorem truncate_ok (h : (truncate now id newSize).run fs = (.ok u, fs')) :
    ∃ x fs1 fs2 sb, loadInode fs.device id = .ok x ∧ ((List.range' (blocksFor newSize % 2 ^ 32)
        (blocksFor x.size.toNat % 2 ^ 32 - blocksFor newSize % 2 ^ 32)).forM
          (truncateRound x)).run fs = (.ok (), fs1) ∧
      (zeroTail x newSize).run fs1 = (.ok (), fs2) ∧
      ¬ id ≥ inodeCount ∧ SlotFits id ∧ fs2.device.InRange inodeTableBlock ∧
      fs' = { fs2 with
        device := stored fs2.device id (resized x now newSize) sb } := by
  rw [truncate, run_bind_eq_ok_iff] at h
  obtain ⟨x, fs0, hread, h⟩ := h
  rw [readInode_run, Prod.mk.injEq] at hread
  obtain ⟨hload, rfl⟩ := hread
  by_cases hmode : x.mode = inodeModeDir
  · simp [hmode, err] at h
  · rw [if_neg hmode, run_bind_eq_ok_iff] at h
    obtain ⟨⟨⟩, fs1, hrounds, h⟩ := h
    rw [run_bind_eq_ok_iff] at h
    obtain ⟨⟨⟩, fs2, htail, h⟩ := h
    rw [run_bind_eq_ok_iff] at h
    obtain ⟨u, fs3, hwrite, h⟩ := h
    obtain ⟨hid, hfit, hrange, rfl⟩ := writeInode_ok hwrite
    rw [flushSuperblock, run_bind, run_gets] at h
    obtain ⟨-, rfl⟩ := writeBlock_eq_ok_iff.mp h
    exact ⟨x, fs1, fs2, _, hload, hrounds, htail, hid, hfit, hrange, rfl⟩

theorem truncate_bytes (hs : Sound fs) (hmax : newSize < 2 ^ 32)
    (hload : loadInode fs.device id = .ok x)
    (hfits : TruncateFits fs.device x newSize)
    (h : (truncate now id newSize).run fs = (.ok u, fs')) :
    ∃ y, loadInode fs'.device id = .ok y ∧ y.size.toNat = newSize ∧
      ∀ q c, q < newSize → byteAt (contents fs.device x) q = some c →
        byteAt (contents fs'.device y) q = some c := by
  obtain ⟨x', fs1, fs2, sb, hload', hrounds, htail, hid, hfit, hrange, rfl⟩ :=
    truncate_ok h
  obtain rfl : x = x' := Except.ok.inj (hload.symm.trans hload')
  have hx := hs.ownTree (liveInode_eq_some_iff.mpr hload)
  have hsize := x.size.toNat_lt
  have hblocks : blocksFor newSize % 2 ^ 32 = blocksFor newSize :=
    Nat.mod_eq_of_lt (by unfold blocksFor; omega)
  have hblocks' : blocksFor x.size.toNat % 2 ^ 32 = blocksFor x.size.toNat :=
    Nat.mod_eq_of_lt (by unfold blocksFor; omega)
  rw [hblocks, hblocks'] at hrounds
  have htrim := truncateRounds_trimmed hx (hfits.words.imp_right fun hall l hn hl =>
    hall l hn (by omega)) hrounds
  have hkept2 : KeptIn (fun _ => True) fs fs2 x x :=
    zeroTail_spec.ok _ _ _ ⟨htrim.kept, trivial⟩ htail
  have hstored : SameTree wordLayout fs2.device
      (stored fs2.device id (resized x now newSize) sb) x :=
    sameTree_stored sb _ hkept2.ownTree
  refine ⟨_, loadInode_stored_self sb hid hfit hrange _, ?_, fun q c hq hbyte => ?_⟩
  · change (UInt32.ofNat newSize).toNat = newSize
    rw [UInt32.toNat_ofNat', Nat.mod_eq_of_lt hmax]
  · change byteAt (contents (stored _ _ _ _) x) q = some c
    rw [hstored.contents_eq]
    refine zeroTail_byteAt htrim.kept.ownTree hmax htail hq ?_
    unfold byteAt at hbyte ⊢
    rwa [htrim.contents (q / 4096) (by unfold blocksFor; omega)]

end

section

open ByteVector (resize write)

/-- The file `id` can be read and its bytes are `v`. -/
structure Holds (fs : ZiqaFs) (id : UInt32) (x : Inode) (v : List UInt8) : Prop where
  load : loadInode fs.device id = .ok x
  size : x.size.toNat = v.length
  bytes : ∀ p < v.length, byteAt (contents fs.device x) p = some (v.getD p 0)

variable {v buf : List UInt8} {offset len : Nat}

theorem Holds.fileRead_eq (h : Holds fs id x v) (offset len : Nat) :
    fileRead fs.device id offset len = .ok (ByteVector.read v offset len) := by
  have hlen : fileRead fs.device id offset len =
      fileRead fs.device id offset (min len (v.length - offset)) := by
    simp only [fileRead, h.load, h.size]
    congr 2 <;> omega
  rw [hlen, ← ByteVector.map_range_getD]
  exact fileRead_of_byteAt h.load (by rw [h.size]; omega)
    fun k hk => h.bytes (offset + k) (by omega)

/-- What `write_file` needs in order to act on the vector: the end can be mapped,
and the bytes between the end of the file and the start of the write are zero, or
lie in a hole that the write fills. -/
structure WriteFits (d : Disk) (x : Inode) (offset : Nat) (buf : List UInt8) : Prop where
  mapped : offset + buf.length ≤ maxBlocks * 4096
  zeros : ∀ p, x.size.toNat ≤ p → p < offset → byteAt (contents d x) p = some 0 ∨
      buf ≠ [] ∧ p / 4096 = offset / 4096 ∧ contents d x (p / 4096) = .ok none

theorem Holds.write (h : Holds fs id x v) (hs : Sound fs) (hfits : WriteFits fs.device x offset buf)
    (hrun : (writeFile now id offset buf).run fs = (.ok n, fs')) :
    Sound fs' ∧ ∃ y, Holds fs' id y (write v offset buf) := by
  obtain ⟨x', y, hupd, hbytes⟩ := writeFile_spec hs.owned hs.healthy.reserved hrun
  obtain rfl : x = x' := Except.ok.inj (h.load.symm.trans hupd.before)
  obtain ⟨hsize, hwrote⟩ := hbytes hfits.mapped
  refine ⟨⟨hs.healthy.step hupd.geometry hupd.sectors hupd.upper, hupd.owned⟩, y,
    hupd.after, ?_, fun p hp => ?_⟩
  · rw [hsize, h.size, ByteVector.length_write]
  rw [ByteVector.length_write] at hp
  rcases Nat.lt_or_ge p offset with hlow | hlow
  · rw [ByteVector.getD_write_of_lt hlow]
    rcases Nat.lt_or_ge p v.length with hin | hgap
    · exact hwrote.outside p _ (Or.inl hlow) (h.bytes p hin)
    · -- a byte of the gap
      rw [List.getD_eq_default _ _ hgap]
      rcases hfits.zeros p (h.size ▸ hgap) hlow with hzero | ⟨hne, hdiv, hnone⟩
      · exact hwrote.outside p 0 (Or.inl hlow) hzero
      · exact hwrote.filled hne (hdiv ▸ hnone) p hlow hdiv
  rcases Nat.lt_or_ge p (offset + buf.length) with hin | hhigh
  · obtain ⟨k, rfl⟩ := Nat.exists_eq_add_of_le hlow
    have hk : k < buf.length := by omega
    rw [ByteVector.getD_write_inside hk, hwrote.inside k hk,
      List.getD_eq_getElem?_getD, List.getElem?_eq_getElem hk, Option.getD_some]
  · rw [ByteVector.getD_write_of_le hhigh]
    exact hwrote.outside p _ (Or.inr hhigh) (h.bytes p (by omega))

theorem lt_of_byteAt {c : UInt8} {p : Nat} (h : byteAt (contents d x) p = some c) :
    p < maxBlocks * 4096 := by
  obtain ⟨b, hb, -⟩ := exists_of_byteAt h
  unfold contents at hb
  split at hb
  · cases hb
  · next hmap =>
    have hlt := (blockMap_eq_ok hmap).2
    omega

theorem Holds.truncate (h : Holds fs id x v) (hs : Sound fs)
    (hfits : TruncateFits fs.device x newSize)
    (hrun : (truncate now id newSize).run fs = (.ok u, fs')) :
    Sound fs' ∧ ∃ y, Holds fs' id y (resize v newSize) := by
  have hbound := x.size.toNat_lt
  have hmax : newSize < 2 ^ 32 := by
    -- the last byte of a file that grows can be read
    by_contra hge
    have hlast := lt_of_byteAt (hfits.zeros (newSize - 1) (by omega) (by omega))
    rw [maxBlocks] at hlast
    omega
  refine ⟨((truncate_spec hs.plain).ok _ _ _ rfl hrun).toSound, ?_⟩
  obtain ⟨y, hload, hsize, hbytes⟩ := truncate_bytes hs hmax h.load hfits hrun
  refine ⟨y, hload, by rw [hsize, ByteVector.length_resize], fun p hp => ?_⟩
  rw [ByteVector.length_resize] at hp
  rw [ByteVector.getD_resize hp]
  refine hbytes p _ hp ?_
  rcases Nat.lt_or_ge p v.length with hin | hgap
  · exact h.bytes p hin
  · rw [List.getD_eq_default _ _ hgap]
    exact hfits.zeros p (h.size ▸ hgap) hp

inductive FileCall where
  | write (now : UInt32) (offset : Nat) (buf : List UInt8)
  | truncate (now : UInt32) (newSize : Nat)

def FileCall.exec (id : UInt32) : FileCall → FsM Unit
  | .write now offset buf => (Call.writeFile now id offset buf).exec
  | .truncate now newSize => (Call.truncate now id newSize).exec

def FileCall.apply : FileCall → List UInt8 → List UInt8
  | .write _ offset buf, v => ByteVector.write v offset buf
  | .truncate _ newSize, v => resize v newSize

def FileCall.Fits (c : FileCall) (d : Disk) (x : Inode) : Prop :=
  match c with
  | .write _ offset buf => WriteFits d x offset buf
  | .truncate _ newSize => TruncateFits d x newSize

/-- The runs of successful calls on a file that is empty at first, on a volume
that is in order at first, with the vector that the file is meant to be. -/
inductive FileRun (allowed : FileCall → Disk → Inode → Prop) (id : UInt32) :
    ZiqaFs → List UInt8 → Prop where
  | empty {fs : ZiqaFs} {x : Inode} (hs : Sound fs)
      (hload : loadInode fs.device id = .ok x) (hsize : x.size = 0) :
      FileRun allowed id fs []
  | call {fs fs' : ZiqaFs} {v : List UInt8} {c : FileCall} (h : FileRun allowed id fs v)
      (hallowed : ∀ x, loadInode fs.device id = .ok x → allowed c fs.device x)
      (hrun : (c.exec id).run fs = (.ok (), fs')) :
      FileRun allowed id fs' (c.apply v)

theorem Holds.step {c : FileCall} (h : Holds fs id x v) (hs : Sound fs)
    (hfits : c.Fits fs.device x) (hrun : (c.exec id).run fs = (.ok (), fs')) :
    Sound fs' ∧ ∃ y, Holds fs' id y (c.apply v) := by
  cases c with
  | write now offset buf =>
    obtain ⟨n, fs1, hwrite, hpure⟩ := (run_bind_eq_ok_iff ..).mp hrun
    rw [run_pure_eq_ok_iff] at hpure
    exact h.write hs hfits (hpure.2 ▸ hwrite)
  | truncate now newSize => exact h.truncate hs hfits hrun

theorem FileRun.holds (h : FileRun FileCall.Fits id fs v) : Sound fs ∧ ∃ x, Holds fs id x v := by
  induction h with
  | empty hs hload hsize =>
    refine ⟨hs, _, hload, ?_, fun p hp => absurd hp (Nat.not_lt_zero p)⟩
    rw [hsize]
    rfl
  | call h hfits hrun ih =>
    obtain ⟨hs, x, hx⟩ := ih
    exact hx.step hs (hfits x hx.load) hrun

theorem writeFile_past_end (hload : loadInode fs.device id = .ok x)
    (hbuf : buf ≠ []) (hpast : maxBlocks * 4096 ≤ offset % 2 ^ 32) :
    ∃ e, (writeFile now id offset buf).run fs = (.error (.error e), fs) := by
  have hmap : blockMap fs.device x (logicalOf offset) =
      .error (.error (.other "File too large")) := by
    rw [maxBlocks] at hpast
    unfold blockMap logicalOf
    rw [dif_neg (by omega), if_neg (by omega), if_neg (by omega)]
  have hget := inodeGetBlock_run x (logicalOf offset) fs
  rw [hmap] at hget
  obtain ⟨c, rest, rfl⟩ := List.exists_cons_of_ne_nil hbuf
  by_cases hmode : x.mode = inodeModeDir
  · refine ⟨.other "Cannot write to directory", ?_⟩
    rw [writeFile, run_bind, readInode_run, hload]
    simp [hmode, err]
  · refine ⟨.other "File too large", ?_⟩
    rw [writeFile, run_bind, readInode_run, hload]
    simp only [hmode, ↓reduceIte]
    rw [run_bind, List.length_cons, writeLoop, if_neg hbuf,
      run_bind, writeRound, run_bind, hget]

/-- Along every run of calls that fit, the file reads as the vector, and a write
that starts past the largest size fails without effect. -/
theorem fileRun_reads (id : UInt32) (fs : ZiqaFs) (v : List UInt8)
    (h : FileRun FileCall.Fits id fs v) :
    (∀ offset len, ((readFile id offset len).run fs).1 = .ok (ByteVector.read v offset len)) ∧
      ∀ now offset buf, buf ≠ [] → maxBlocks * 4096 ≤ offset % 2 ^ 32 →
        ∃ e, (writeFile now id offset buf).run fs = (.error (.error e), fs) := by
  obtain ⟨-, x, hx⟩ := h.holds
  refine ⟨fun offset len => ?_, fun now offset buf => writeFile_past_end hx.load⟩
  rw [readFile_run, hx.fileRead_eq]

end

/-- Two bytes that start inside the first block of the empty file. -/
def shortWrite : FileCall := .write 0 2 [7, 8]

def volumeShort : ZiqaFs := ((shortWrite.exec 2).run volumeCreated).2

def volumeShortened : ZiqaFs :=
  (((FileCall.truncate 0 3).exec 2).run volumeShort).2

def gapWrite : FileCall := .write 0 4096 [1]

def volumeGap : ZiqaFs := ((gapWrite.exec 2).run volumeCreated).2

theorem FileRun.step {allowed : FileCall → Disk → Inode → Prop} {v : List UInt8}
    {c : FileCall} (h : FileRun allowed id fs v)
    (hallowed : ∀ x, loadInode fs.device id = .ok x → allowed c fs.device x)
    (hfst : ((c.exec id).run fs).1 = .ok ()) :
    FileRun allowed id ((c.exec id).run fs).2 (c.apply v) :=
  .call h hallowed (Prod.ext hfst rfl)

theorem fileRun_created (allowed : FileCall → Disk → Inode → Prop) :
    FileRun allowed 2 volumeCreated [] := by
  obtain ⟨x, hx, hsize, -⟩ := volumeCreated_empty
  exact .empty (volumeCreated_reached Call.Safe trivial).sound (liveInode_eq_some_iff.mp hx) hsize

/-- A write past the end of the empty file, whose gap lies in the block that is
written. -/
theorem fileRun_short : FileRun FileCall.Fits 2 volumeShort [0, 0, 7, 8] := by
  have hwrite : ((shortWrite.exec 2).run volumeCreated).1 = .ok () := by
    decide +kernel
  unfold volumeShort
  refine (fileRun_created _).step (fun x hx => ⟨by simp [maxBlocks], ?_⟩) hwrite
  obtain ⟨y, hy, -, hblocks⟩ := volumeCreated_empty
  obtain rfl : y = x :=
    Option.some.inj (hy.symm.trans (liveInode_eq_some_iff.mpr hx))
  intro p _ hp
  have hdiv : p / 4096 = 0 := by omega
  refine Or.inr ⟨by simp, hdiv, ?_⟩
  rw [hdiv, contents, blockMap, dif_pos (by decide), hblocks]
  rfl

/-- The same write, and a truncation. -/
theorem fileRun_reads_shortened : ((readFile 2 0 10).run volumeShortened).1 = .ok [0, 0, 7] := by
  have hcut : (((FileCall.truncate 0 3).exec 2).run volumeShort).1 = .ok () := by
    decide +kernel
  have hshortened : FileRun FileCall.Fits 2 volumeShortened [0, 0, 7] := by
    unfold volumeShortened
    refine fileRun_short.step (fun x hx => ⟨fun p hlow hp => ?_, Or.inl (by decide)⟩) hcut
    obtain ⟨-, y, hy⟩ := fileRun_short.holds
    obtain rfl : y = x := Except.ok.inj (hy.load.symm.trans hx)
    have hsize : y.size.toNat = 4 := hy.size
    omega
  exact (fileRun_reads 2 volumeShortened [0, 0, 7] hshortened).1 0 10

/-- A gap that leaves a block out is not read as zeros, and a write past the
largest size can succeed: its position is cut to 32 bits. -/
theorem fileRun_gap : (∃ fs v, FileRun (fun _ _ _ => True) 2 fs v ∧
      ((readFile 2 0 v.length).run fs).1 ≠ .ok (ByteVector.read v 0 v.length)) ∧
    ∃ fs v offset, FileRun (fun _ _ _ => True) 2 fs v ∧ maxBlocks * 4096 < offset + 1 ∧
      ((writeFile 0 2 offset [7]).run fs).1 = .ok 1 := by
  have hwrite : ((gapWrite.exec 2).run volumeCreated).1 = .ok () := by
    decide +kernel
  have hread : ((readFile 2 0 4097).run volumeGap).1 = .ok [] := by
    decide +kernel
  have hwrap : ((writeFile 0 2 (2 ^ 32) [7]).run volumeCreated).1 = .ok 1 := by
    decide +kernel
  have hgap : FileRun (fun _ _ _ => True) 2 volumeGap (gapWrite.apply []) := by
    unfold volumeGap
    exact (fileRun_created _).step (fun _ _ => trivial) hwrite
  have hlen : (gapWrite.apply []).length = 4097 := ByteVector.length_write ..
  refine ⟨⟨volumeGap, _, hgap, ?_⟩, volumeCreated, [], 2 ^ 32, fileRun_created _,
    by simp [maxBlocks], hwrap⟩
  rw [hlen, hread, ne_eq, Except.ok.injEq]
  intro hnil
  have hzero := congrArg List.length hnil
  rw [ByteVector.length_read, hlen] at hzero
  exact absurd hzero (by decide)

end ZiqaKernel
