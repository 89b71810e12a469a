/-
Reading files.  `read_file` never changes the volume, and what it returns is a
function of the inode and of the contents of its logical blocks.
-/
import ZiqaKernel.ZiqaFsOwnership

namespace ZiqaKernel

open Fallible

/-- The outcome of `read_inode`. -/
def loadInode (d : Disk) (id : UInt32) : Except Failure Inode :=
  if id ≥ inodeCount then .error (.error .outOfBounds)
  else
    match d.load inodeTableBlock with
    | .error e => .error e
    | .ok table =>
      if SlotFits id then
        if (slotInode table id).checksum ≠ calculateInodeChecksum (slotInode table id) then
          .error (.error (.other "Inode checksum mismatch"))
        else .ok (slotInode table id)
      else .error .fault

/-- The inodes that `read_inode` accepts. -/
def liveInode (d : Disk) (id : UInt32) : Option Inode :=
  match loadInode d id with
  | .ok x => some x
  | .error _ => none

/-- The contents of one logical block; `none` is a hole. -/
abbrev Contents : Type := Nat → Except Failure (Option Block)

def contents (d : Disk) (x : Inode) : Contents := fun l =>
  match blockMap d x l with
  | .error e => .error e
  | .ok p => if p.1 = 0 then .ok none else (d.load p.1).map some

/-- The byte at position `p`, if it lies in a block that can be read. -/
def byteAt (v : Contents) (p : Nat) : Option UInt8 :=
  match v (p / 4096) with
  | .ok (some b) => some (b.get (p % 4096))
  | _ => none

/-- The copy loop of `read_file` as a function of the block contents. -/
def readBytes (v : Contents) (offset toRead : Nat) : Nat → Nat → Except Failure (List UInt8)
  | 0, _ => .ok []
  | fuel + 1, done =>
    if done < toRead then
      match v (logicalOf (offset + done)) with
      | .error e => .error e
      | .ok none => .ok []
      | .ok (some buf) =>
        let chunk := min (toRead - done) (4096 - (offset + done) % 4096)
        (readBytes v offset toRead fuel (done + chunk)).map
          (buf.slice ((offset + done) % 4096) chunk ++ ·)
    else .ok []

/-- The outcome of `read_file`. -/
def fileRead (d : Disk) (id : UInt32) (offset len : Nat) : Except Failure (List UInt8) :=
  match loadInode d id with
  | .error e => .error e
  | .ok x =>
    if offset ≥ x.size.toNat then .ok []
    else
      let toRead := min (x.size.toNat - offset) len
      readBytes (contents d x) offset toRead toRead 0

theorem readInode_run (id : UInt32) (fs : ZiqaFs) :
    (readInode id).run fs = (loadInode fs.device id, fs) := by
  unfold readInode loadInode
  by_cases hid : id ≥ inodeCount
  · simp [hid, err]
  · rw [if_neg hid, if_neg hid, run_bind, readBlock_run]
    cases fs.device.load inodeTableBlock with
    | error e => rfl
    | ok table =>
      by_cases hfit : SlotFits id
      · by_cases hsum : (slotInode table id).checksum = calculateInodeChecksum (slotInode table id)
        · simp [hfit, hsum]
        · simp [hfit, hsum, err]
      · simp [hfit, faulted]

theorem readLoop_run (x : Inode) (offset toRead fuel done : Nat) (fs : ZiqaFs) :
    (readLoop x offset toRead fuel done).run fs =
      (readBytes (contents fs.device x) offset toRead fuel done, fs) := by
  induction fuel generalizing done with
  | zero => rfl
  | succ fuel ih =>
    rw [readLoop, readBytes]
    by_cases hdone : done < toRead
    · rw [if_pos hdone, if_pos hdone, run_bind, inodeGetBlock_run, contents]
      cases hmap : blockMap fs.device x (logicalOf (offset + done)) with
      | error e => rfl
      | ok p =>
        obtain ⟨phys, sum⟩ := p
        by_cases hphys : phys = 0
        · simp [hphys]
        · simp only [hphys, ↓reduceIte]
          rw [run_bind, readBlock_run]
          cases fs.device.load phys with
          | error e => rfl
          | ok buf =>
            simp only [Except.map]
            rw [run_bind, ih]
            cases readBytes (contents fs.device x) offset toRead fuel (done + min (toRead - done)
                (4096 - (offset + done) % 4096)) <;> rfl
    · simp [hdone]

theorem readFile_run (id : UInt32) (offset len : Nat) (fs : ZiqaFs) :
    (readFile id offset len).run fs = (fileRead fs.device id offset len, fs) := by
  rw [readFile, fileRead, run_bind, readInode_run]
  cases loadInode fs.device id with
  | error e => rfl
  | ok x =>
    by_cases hoff : offset ≥ x.size.toNat
    · simp [hoff]
    · simp only [hoff, ↓reduceIte]
      exact readLoop_run x offset _ _ 0 fs

theorem contents_congr {d d' : Disk} {x : Inode} {l : Nat} (hsec : d'.totalSectors = d.totalSectors)
    (hmap : blockMap d' x l = blockMap d x l)
    (hdata : refAt d x (dataSlot l) ≠ 0 → d'.block (refAt d x (dataSlot l)) =
      d.block (refAt d x (dataSlot l))) : contents d' x l = contents d x l := by
  unfold contents
  rw [hmap]
  cases hp : blockMap d x l with
  | error e => rfl
  | ok p =>
    simp only
    by_cases hzero : p.1 = 0
    · simp [hzero]
    · rw [if_neg hzero, if_neg hzero, Disk.load_congr hsec]
      rw [(blockMap_eq_ok hp).1] at hzero ⊢
      exact hdata hzero

theorem SameTree.contents_eq {L : Layout} {d d' : Disk} {x : Inode}
    (h : SameTree L d d' x) : contents d' x = contents d x := by
  funext l
  exact contents_congr h.sectors (h.blockMap_eq l) (h.keeps_refAt (L.dataSlot x.mode l))

variable {v : Contents}

theorem byteAt_of_contents {p : Nat} {b : Block}
    (h : v (p / 4096) = .ok (some b)) : byteAt v p = some (b.get (p % 4096)) := by
  rw [byteAt, h]

theorem exists_of_byteAt {p : Nat} {c : UInt8} (h : byteAt v p = some c) :
    ∃ b, v (p / 4096) = .ok (some b) ∧ b.get (p % 4096) = c := by
  unfold byteAt at h
  split at h
  · next b hb => exact ⟨b, hb, Option.some.inj h⟩
  · cases h

theorem logicalOf_of_lt {p : Nat} (h : p < 2 ^ 32) : logicalOf p = p / 4096 := by
  rw [logicalOf, Nat.mod_eq_of_lt h]

theorem Except.map_eq_ok {ε α β : Type} {f : α → β} {r : Except ε α} {b : β}
    (h : r.map f = .ok b) : ∃ a, r = .ok a ∧ f a = b := by
  cases r with
  | error e => cases h
  | ok a => exact ⟨a, rfl, Except.ok.inj h⟩

theorem byteAt_of_readBytes {offset toRead fuel done : Nat}
    {bytes : List UInt8} (hmax : offset + toRead ≤ 2 ^ 32)
    (h : readBytes v offset toRead fuel done = .ok bytes) {k : Nat}
    (hk : k < bytes.length) :
    done + k < toRead ∧ byteAt v (offset + done + k) = bytes[k]? := by
  induction fuel generalizing done bytes k with
  | zero =>
    rw [readBytes, Except.ok.injEq] at h
    simp [← h] at hk
  | succ fuel ih =>
    rw [readBytes] at h
    by_cases hdone : done < toRead
    · rw [if_pos hdone, logicalOf_of_lt (by omega)] at h
      cases hv : v ((offset + done) / 4096) with
      | error e => simp [hv] at h
      | ok block =>
        cases block with
        | none =>
          simp only [hv, Except.ok.injEq] at h
          simp [← h] at hk
        | some buf =>
          simp only [hv] at h
          obtain ⟨rest, hrest, rfl⟩ := Except.map_eq_ok h
          rw [List.length_append, Image.length_slice] at hk
          by_cases hchunk : k < min (toRead - done) (4096 - (offset + done) % 4096)
          · rw [List.getElem?_append_left (by simpa using hchunk), Image.getElem?_slice _ _ hchunk]
            have hdiv : (offset + done + k) / 4096 = (offset + done) / 4096 := by omega
            have hmod : (offset + done + k) % 4096 = (offset + done) % 4096 + k := by omega
            refine ⟨by omega, ?_⟩
            rw [byteAt_of_contents (hdiv ▸ hv), hmod]
          · have hlen : (buf.slice ((offset + done) % 4096) (min
                (toRead - done) (4096 - (offset + done) % 4096))).length ≤
                k := by
              rw [Image.length_slice]
              omega
            obtain ⟨hlt, hbyte⟩ := ih hrest (k := k - min (toRead - done)
              (4096 - (offset + done) % 4096)) (by omega)
            refine ⟨by omega, ?_⟩
            rw [List.getElem?_append_right hlen, Image.length_slice, ← hbyte]
            congr 1
            omega
    · rw [if_neg hdone, Except.ok.injEq] at h
      simp [← h] at hk

theorem readBytes_of_byteAt {offset toRead fuel done n : Nat}
    {f : Nat → UInt8} (hmax : offset + toRead ≤ 2 ^ 32)
    (hn : done + n = toRead) (hfuel : n ≤ fuel)
    (h : ∀ k < n, byteAt v (offset + done + k) = some (f k)) :
    readBytes v offset toRead fuel done = .ok ((List.range n).map f) := by
  induction fuel generalizing done n f with
  | zero =>
    obtain rfl : n = 0 := by omega
    rfl
  | succ fuel ih =>
    rw [readBytes]
    by_cases hdone : done < toRead
    · obtain ⟨buf, hv, -⟩ := exists_of_byteAt (h 0 (by omega))
      rw [Nat.add_zero] at hv
      rw [if_pos hdone, logicalOf_of_lt (by omega), hv]
      simp only
      have hpos : 0 < 4096 - (offset + done) % 4096 := by omega
      generalize hchunk : min (toRead - done) (4096 - (offset + done) % 4096) = chunk
      have hslice : buf.slice ((offset + done) % 4096) chunk = (List.range chunk).map f := by
        apply List.map_congr_left
        intro k hk
        rw [List.mem_range] at hk
        have hdiv : (offset + done + k) / 4096 = (offset + done) / 4096 := by
          omega
        have hmod : (offset + done + k) % 4096 = (offset + done) % 4096 + k := by omega
        have hbyte := h k (by omega)
        rw [byteAt_of_contents (hdiv ▸ hv), hmod, Option.some.injEq] at hbyte
        exact hbyte
      rw [ih (n := n - chunk) (f := fun k => f (chunk + k)) (by omega) (by omega) ?_, hslice]
      · change Except.ok _ = Except.ok _
        have hrange : List.range n =
            List.range chunk ++ (List.range (n - chunk)).map (chunk + ·) := by
          rw [← List.range_add]
          congr 1
          omega
        rw [hrange, List.map_append, List.map_map]
        rfl
      · intro k hk
        have hbyte := h (chunk + k) (by omega)
        rw [← hbyte]
        congr 1
        omega
    · obtain rfl : n = 0 := by omega
      rw [if_neg hdone]
      rfl

theorem fileRead_of_byteAt {d : Disk} {id : UInt32} {x : Inode}
    {offset n : Nat} {f : Nat → UInt8} (hload : loadInode d id = .ok x)
    (hsize : n = 0 ∨ offset + n ≤ x.size.toNat)
    (h : ∀ k < n, byteAt (contents d x) (offset + k) = some (f k)) :
    fileRead d id offset n = .ok ((List.range n).map f) := by
  unfold fileRead
  rw [hload]
  simp only
  by_cases hoff : offset ≥ x.size.toNat
  · obtain rfl : n = 0 := by omega
    rw [if_pos hoff]
    rfl
  · have hread : min (x.size.toNat - offset) n = n := by omega
    have hbound := x.size.toNat_lt
    rw [if_neg hoff, hread]
    exact readBytes_of_byteAt (by omega) (by omega) (Nat.le_refl n) h

theorem byteAt_of_fileRead {d : Disk} {id : UInt32} {offset len : Nat}
    {bytes : List UInt8} (h : fileRead d id offset len = .ok bytes) :
    ∃ x, loadInode d id = .ok x ∧ ∀ k < bytes.length, offset + k < x.size.toNat ∧
        byteAt (contents d x) (offset + k) = bytes[k]? := by
  unfold fileRead at h
  cases hload : loadInode d id with
  | error e => simp [hload] at h
  | ok x =>
    rw [hload] at h
    simp only at h
    refine ⟨x, rfl, fun k hk => ?_⟩
    have hbound := x.size.toNat_lt
    split_ifs at h with hoff
    · rw [Except.ok.injEq] at h
      simp [← h] at hk
    · obtain ⟨hlt, hbyte⟩ := byteAt_of_readBytes (by omega) h hk
      exact ⟨by omega, hbyte⟩

end ZiqaKernel
