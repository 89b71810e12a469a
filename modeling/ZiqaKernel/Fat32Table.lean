/-
What the table operations of the FAT32 driver do to the table entries and to
the data behind them.
-/
import ZiqaKernel.Fat32

namespace ZiqaKernel

open Fallible Fat32Bpb

namespace Disk

def setBytes (d : Disk) (sector count : Nat) (buf : Nat → UInt8) : Disk where
  totalSectors := d.totalSectors
  data p :=
    if sector ≤ p ∧ p < sector + count then
      Image.ofFn fun k => buf (512 * (p - sector) + k)
    else d.data p

theorem byte_setBytes (d : Disk) (sector count : Nat) (buf : Nat → UInt8) (a : Nat) :
    (d.setBytes sector count buf).byte a =
      if 512 * sector ≤ a ∧ a < 512 * (sector + count) then buf (a - 512 * sector)
      else d.byte a := by
  have hmod := Nat.mod_lt a (show 512 > 0 by omega)
  simp only [byte, setBytes]
  by_cases hin : 512 * sector ≤ a ∧ a < 512 * (sector + count)
  · rw [if_pos hin, if_pos (by omega), Image.get_ofFn, if_pos hmod]
    congr 1
    omega
  · rw [if_neg hin, if_neg (by omega)]

theorem readBytes_eq (d : Disk) (sector count : Nat) : d.readBytes sector count =
      if sector + count ≤ d.totalSectors then
        .ok fun k => d.byte (512 * sector + k)
      else .error .outOfBounds := by
  unfold readBytes readSectors
  by_cases h : sector + count ≤ d.totalSectors
  · simp only [h, ↓reduceIte]
    congr 1
    funext k
    rw [byte, show (512 * sector + k) / 512 = sector + k / 512 by omega,
      show (512 * sector + k) % 512 = k % 512 by omega]
  · simp only [h, ↓reduceIte]

theorem writeBytes_eq (d : Disk) (sector count : Nat) (buf : Nat → UInt8) :
    d.writeBytes sector count buf =
      if sector + count ≤ d.totalSectors then .ok (d.setBytes sector count buf)
      else .error .outOfBounds := rfl

end Disk

theorem patch_inside (buf : Nat → UInt8) {off len : Nat} (src : Nat → UInt8) {k : Nat}
    (hk : k < len) : patch buf off len src (off + k) = src k := by
  rw [patch, if_pos (by omega), Nat.add_sub_cancel_left]

theorem patch_outside (buf : Nat → UInt8) {off len : Nat} (src : Nat → UInt8) {k : Nat}
    (hk : k < off ∨ off + len ≤ k) : patch buf off len src k = buf k := by
  rw [patch, if_neg (by omega)]

theorem entryValue_newEntry (old : UInt32) (next : Nat) :
    entryValue (newEntry old next) = next % 0x10000000 := by
  rw [entryValue, newEntry, UInt32.toNat_ofNat']
  omega

theorem endOfChain_mod : endOfChain % 0x10000000 = endOfChain := by
  simp [endOfChain]

theorem nextOf_eq_some_iff {entry c : Nat} :
    nextOf entry = some c ↔ entry = c ∧ 2 ≤ c ∧ c < endMark := by
  unfold nextOf
  split
  · simp only [reduceCtorEq, false_iff]
    omega
  · split
    · simp only [reduceCtorEq, false_iff]
      omega
    · simp only [Option.some.injEq]
      omega

theorem nextOf_eq_none_iff {entry : Nat} : nextOf entry = none ↔ entry < 2 ∨ endMark ≤ entry := by
  unfold nextOf
  split
  · simp [*]
  · split <;> simp [*]

section

variable (bpb : Fat32Bpb)

/-- Where entry `c` of copy `i` of the table starts. -/
def Fat32Bpb.fatAddr (i c : Nat) : Nat :=
  512 * (bpb.fatStartSector + i * bpb.sectorsPerFat32) + 4 * c

/-- Entry `c` of the table; the driver reads the first copy only. -/
def fatEntry (d : Disk) (c : Nat) : Nat :=
  entryValue (u32At d.byte (bpb.fatAddr 0 c))

/-- Where cluster `c` starts. -/
def Fat32Bpb.clusterAddr (c : Nat) : Nat := 512 * bpb.clusterToSector c

/-- Byte `k` of cluster `c`. -/
def clusterByte (d : Disk) (c k : Nat) : UInt8 := d.byte (bpb.clusterAddr c + k)

def Fat32Bpb.TableOnDevice (d : Disk) : Prop := bpb.dataStartSector ≤ d.totalSectors

def Fat32Bpb.CopiesAgree (d : Disk) : Prop :=
  ∀ i < bpb.numFats, ∀ j < 512 * bpb.sectorsPerFat32,
    d.byte (bpb.fatAddr i 0 + j) = d.byte (bpb.fatAddr 0 0 + j)

/-- Cluster `c` is a cluster of the table that no chain uses. -/
def FreeCluster (d : Disk) (c : Nat) : Prop :=
  2 ≤ c ∧ c < bpb.maxClusters ∧ fatEntry bpb d c = 0

def LeastFree (d : Disk) (c : Nat) : Prop :=
  FreeCluster bpb d c ∧ ∀ c' < c, ¬ FreeCluster bpb d c'

/-- The device holds the data of cluster `c`. -/
def Fat32Bpb.ClusterOnDevice (d : Disk) (c : Nat) : Prop :=
  bpb.clusterToSector c + bpb.sectorsPerCluster ≤ d.totalSectors

instance (d : Disk) : Decidable (bpb.TableOnDevice d) :=
  inferInstanceAs (Decidable (_ ≤ _))

instance (d : Disk) (c : Nat) : Decidable (bpb.ClusterOnDevice d c) :=
  inferInstanceAs (Decidable (_ ≤ _))

instance (d : Disk) (c : Nat) : Decidable (FreeCluster bpb d c) :=
  inferInstanceAs (Decidable (_ ∧ _ ∧ _))

end

section

variable {bpb : Fat32Bpb} {d d' : Disk} {c c' k i : Nat}

theorem Fat32Bpb.maxClusters_eq (bpb : Fat32Bpb) : bpb.maxClusters = bpb.sectorsPerFat32 * 128 := by
  unfold maxClusters
  omega

theorem Fat32Bpb.entrySector_lt (hc : c < bpb.maxClusters) : c * 4 / 512 < bpb.sectorsPerFat32 := by
  rw [bpb.maxClusters_eq] at hc
  omega

theorem Fat32Bpb.copy_injective {i i' q q' : Nat} (hq : q < bpb.sectorsPerFat32)
    (hq' : q' < bpb.sectorsPerFat32)
    (h : i * bpb.sectorsPerFat32 + q = i' * bpb.sectorsPerFat32 + q') :
    i = i' ∧ q = q' := by
  have hpos : 0 < bpb.sectorsPerFat32 := by omega
  have hdiv := congrArg (· / bpb.sectorsPerFat32) h
  simp only [Nat.mul_comm _ bpb.sectorsPerFat32, Nat.mul_add_div hpos,
    Nat.div_eq_of_lt hq, Nat.div_eq_of_lt hq', Nat.add_zero] at hdiv
  exact ⟨hdiv, by rw [hdiv] at h; omega⟩

theorem Fat32Bpb.copySector_lt (hi : i < bpb.numFats) {q : Nat} (hq : q < bpb.sectorsPerFat32) :
    bpb.fatStartSector + i * bpb.sectorsPerFat32 + q < bpb.dataStartSector := by
  have hle : (i + 1) * bpb.sectorsPerFat32 ≤ bpb.numFats * bpb.sectorsPerFat32 :=
    Nat.mul_le_mul_right _ hi
  rw [Nat.add_mul, Nat.one_mul] at hle
  rw [Fat32Bpb.dataStartSector]
  omega

theorem Fat32Bpb.clusterToSector_eq (bpb : Fat32Bpb) (hc : 2 ≤ c) :
    bpb.clusterToSector c = bpb.dataStartSector + (c - 2) * bpb.sectorsPerCluster := by
  rw [clusterToSector, if_pos hc]

theorem Fat32Bpb.fatAddr_div (bpb : Fat32Bpb) (i c : Nat) (hk : k < 4) :
    (bpb.fatAddr i c + k) / 512 = bpb.fatStartSector + i * bpb.sectorsPerFat32 + c * 4 / 512 := by
  unfold fatAddr
  omega

theorem Fat32Bpb.fatAddr_mod (bpb : Fat32Bpb) (i c : Nat) (hk : k < 4) :
    (bpb.fatAddr i c + k) % 512 = c * 4 % 512 + k := by
  unfold fatAddr
  omega

theorem entryOffset_ne (hne : c' ≠ c) (hsec : c' * 4 / 512 = c * 4 / 512) (hk : k < 4) :
    c' * 4 % 512 + k < c * 4 % 512 ∨ c * 4 % 512 + 4 ≤ c' * 4 % 512 + k := by
  omega

end

section

variable {bpb : Fat32Bpb} {d d' : Disk} {c c' v : Nat}

theorem run_readSectorsFat (sector count : Nat) (d : Disk) : (readSectorsFat sector count).run d =
      if sector + count ≤ d.totalSectors then
        (.ok fun k => d.byte (512 * sector + k), d)
      else (.error .ioError, d) := by
  simp only [readSectorsFat, d.readBytes_eq]
  by_cases h : sector + count ≤ d.totalSectors <;> simp [h]

theorem run_writeSectorsFat (sector count : Nat) (buf : Nat → UInt8) (d : Disk) :
    (writeSectorsFat sector count buf).run d =
      if sector + count ≤ d.totalSectors then (.ok (), d.setBytes sector count buf)
      else (.error .ioError, d) := by
  simp only [writeSectorsFat, d.writeBytes_eq]
  by_cases h : sector + count ≤ d.totalSectors <;> simp [h]

/-- The loop over the copies: a byte is the buffer's where its sector is one of
those written. -/
theorem run_writeCopies (bpb : Fat32Bpb) (fatSector : Nat) (buf : Nat → UInt8) (copies : List Nat)
    (hfit : ∀ i ∈ copies, fatSector + i * bpb.sectorsPerFat32 < d.totalSectors) :
    ∃ d', (writeCopies bpb fatSector buf copies).run d = (.ok (), d') ∧
      d'.totalSectors = d.totalSectors ∧
      ∀ a, d'.byte a =
        if ∃ i ∈ copies, a / 512 = fatSector + i * bpb.sectorsPerFat32 then
          buf (a % 512)
        else d.byte a := by
  induction copies generalizing d with
  | nil => exact ⟨d, rfl, rfl, fun a => by simp⟩
  | cons i rest ih =>
    have hi := hfit i List.mem_cons_self
    have hrun : (writeSectorsFat (fatSector + i * bpb.sectorsPerFat32) 1 buf).run d =
        (.ok (), d.setBytes (fatSector + i * bpb.sectorsPerFat32) 1 buf) := by
      rw [run_writeSectorsFat, if_pos (by omega)]
    obtain ⟨d', hrest, htotal, hbyte⟩ :=
      ih (d := d.setBytes (fatSector + i * bpb.sectorsPerFat32) 1 buf)
        fun j hj => hfit j (List.mem_cons_of_mem i hj)
    refine ⟨d', ?_, htotal, fun a => ?_⟩
    · rw [writeCopies, run_bind_of_ok hrun, hrest]
    · rw [hbyte, Disk.byte_setBytes]
      by_cases hrest' : ∃ j ∈ rest, a / 512 = fatSector + j * bpb.sectorsPerFat32
      · obtain ⟨j, hj, ha⟩ := hrest'
        rw [if_pos ⟨j, hj, ha⟩, if_pos ⟨j, List.mem_cons_of_mem i hj, ha⟩]
      · rw [if_neg hrest']
        by_cases hhere : a / 512 = fatSector + i * bpb.sectorsPerFat32
        · rw [if_pos (by omega), if_pos ⟨i, List.mem_cons_self, hhere⟩]
          congr 1
          omega
        · rw [if_neg (by omega), if_neg]
          rintro ⟨j, hj, ha⟩
          rcases List.mem_cons.mp hj with rfl | hj
          · exact hhere ha
          · exact hrest' ⟨j, hj, ha⟩

/-- The sector that `write_fat_entry` stores in every copy. -/
def updatedSector (bpb : Fat32Bpb) (d : Disk) (c v : Nat) : Nat → UInt8 :=
  let old := fun k => d.byte (512 * (bpb.fatStartSector + c * 4 / 512) + k)
  patch old (c * 4 % 512) 4 (le32 (newEntry (u32At old (c * 4 % 512)) v))

/-- The device after the sector of entry `c` was stored in every copy. -/
def StoredEntry (bpb : Fat32Bpb) (d d' : Disk) (c v : Nat) : Prop :=
  ∀ a, d'.byte a =
    if ∃ i < bpb.numFats, a / 512 = bpb.fatStartSector + i * bpb.sectorsPerFat32 + c * 4 / 512 then
      updatedSector bpb d c v (a % 512)
    else d.byte a

theorem run_writeFatEntry (hdev : bpb.TableOnDevice d) (hc : c < bpb.maxClusters) (v : Nat) :
    ∃ d', (writeFatEntry bpb c v).run d = (.ok (), d') ∧
      d'.totalSectors = d.totalSectors ∧ StoredEntry bpb d d' c v := by
  have hcopy : ∀ i < bpb.numFats, bpb.fatStartSector + c * 4 / 512 +
      i * bpb.sectorsPerFat32 < d.totalSectors := by
    intro i hi
    have hlt := bpb.copySector_lt hi (entrySector_lt hc)
    rw [TableOnDevice] at hdev
    omega
  have hfirst := hcopy 0 bpb.numFats_pos
  obtain ⟨d', hrun, htotal, hbyte⟩ := run_writeCopies bpb
    (bpb.fatStartSector + c * 4 / 512) (updatedSector bpb d c v)
    (List.range bpb.numFats) fun i hi => hcopy i (List.mem_range.mp hi)
  have hread : (readSectorsFat (bpb.fatStartSector + c * 4 / 512) 1).run d =
      (.ok fun k => d.byte (512 * (bpb.fatStartSector + c * 4 / 512) + k), d) := by
    rw [run_readSectorsFat, if_pos (by omega)]
  refine ⟨d', ?_, htotal, fun a => ?_⟩
  · rw [writeFatEntry, run_bind_of_ok hread]
    exact hrun
  · rw [hbyte]
    simp only [List.mem_range, Nat.add_right_comm]

theorem StoredEntry.byte_table (h : StoredEntry bpb d d' c v)
    (hc : c < bpb.maxClusters) {i q a : Nat} (hi : i < bpb.numFats)
    (hq : q < bpb.sectorsPerFat32)
    (ha : a / 512 = bpb.fatStartSector + i * bpb.sectorsPerFat32 + q) :
    d'.byte a =
      if q = c * 4 / 512 then updatedSector bpb d c v (a % 512) else d.byte a := by
  rw [h a]
  by_cases hsame : q = c * 4 / 512
  · rw [if_pos hsame, if_pos ⟨i, hi, by rw [ha, hsame]⟩]
  · rw [if_neg hsame, if_neg]
    rintro ⟨i', -, ha'⟩
    have heq : i * bpb.sectorsPerFat32 + q = i' * bpb.sectorsPerFat32 + c * 4 / 512 := by
      omega
    exact hsame (bpb.copy_injective hq (entrySector_lt hc) heq).2

/-- The device after one table entry was written: only that entry has changed,
in every copy alike. -/
structure FatUpdate (bpb : Fat32Bpb) (d d' : Disk) (c v : Nat) : Prop where
  total : d'.totalSectors = d.totalSectors
  entry : ∀ c' < bpb.maxClusters, fatEntry bpb d' c' =
    if c' = c then v % 0x10000000 else fatEntry bpb d c'
  data : ∀ a, 512 * bpb.dataStartSector ≤ a → d'.byte a = d.byte a
  agree : bpb.CopiesAgree d → bpb.CopiesAgree d'

theorem StoredEntry.entry (h : StoredEntry bpb d d' c v) (hc : c < bpb.maxClusters)
    (hc' : c' < bpb.maxClusters) :
    fatEntry bpb d' c' = if c' = c then v % 0x10000000 else fatEntry bpb d c' := by
  have hbyte : ∀ k < 4, d'.byte (bpb.fatAddr 0 c' + k) =
      if c' * 4 / 512 = c * 4 / 512 then updatedSector bpb d c v (c' * 4 % 512 + k)
      else d.byte (bpb.fatAddr 0 c' + k) := by
    intro k hk
    rw [h.byte_table hc bpb.numFats_pos (entrySector_lt hc')
      (bpb.fatAddr_div 0 c' hk), bpb.fatAddr_mod 0 c' hk]
  by_cases heq : c' = c
  · subst heq
    rw [if_pos rfl, fatEntry, u32At_eq fun k hk => ?_, entryValue_newEntry]
    · exact u32At (fun k => d.byte (512 * (bpb.fatStartSector + c' * 4 / 512) + k)) (c' * 4 % 512)
    · rw [hbyte k hk, if_pos rfl, updatedSector, patch_inside _ _ hk]
  · rw [if_neg heq, fatEntry, fatEntry]
    refine congrArg entryValue (u32At_congr fun k hk => ?_)
    rw [hbyte k hk]
    by_cases hsec : c' * 4 / 512 = c * 4 / 512
    · rw [if_pos hsec, updatedSector, patch_outside _ _ (entryOffset_ne heq hsec hk)]
      congr 1
      rw [fatAddr]
      omega
    · rw [if_neg hsec]

theorem StoredEntry.data (h : StoredEntry bpb d d' c v) (hc : c < bpb.maxClusters)
    {a : Nat} (ha : 512 * bpb.dataStartSector ≤ a) : d'.byte a = d.byte a := by
  rw [h a, if_neg]
  rintro ⟨i, hi, hdiv⟩
  have hlt := bpb.copySector_lt hi (entrySector_lt hc)
  omega

theorem StoredEntry.agree (h : StoredEntry bpb d d' c v) (hc : c < bpb.maxClusters)
    (hagree : bpb.CopiesAgree d) : bpb.CopiesAgree d' := by
  intro i hi j hj
  have hdiv : ∀ i, (bpb.fatAddr i 0 + j) / 512 =
      bpb.fatStartSector + i * bpb.sectorsPerFat32 + j / 512 := by
    intro i
    rw [fatAddr]
    omega
  have hmod : ∀ i, (bpb.fatAddr i 0 + j) % 512 = j % 512 := by
    intro i
    rw [fatAddr]
    omega
  have hq : j / 512 < bpb.sectorsPerFat32 := by omega
  rw [h.byte_table hc hi hq (hdiv i), h.byte_table hc bpb.numFats_pos hq (hdiv 0), hmod,
    hmod, hagree i hi j hj]

theorem writeFatEntry_run (hdev : bpb.TableOnDevice d) (hc : c < bpb.maxClusters) (v : Nat) :
    ∃ d', (writeFatEntry bpb c v).run d = (.ok (), d') ∧ FatUpdate bpb d d' c v := by
  obtain ⟨d', hrun, htotal, hstored⟩ := run_writeFatEntry hdev hc v
  exact ⟨d', hrun, htotal, fun c' hc' => hstored.entry hc hc',
    fun a ha => hstored.data hc ha, hstored.agree hc⟩

theorem followClusterChain_eq (hdev : bpb.TableOnDevice d) (hc : c < bpb.maxClusters) :
    followClusterChain bpb d c = nextOf (fatEntry bpb d c) := by
  have hlt := bpb.copySector_lt bpb.numFats_pos (entrySector_lt hc)
  rw [TableOnDevice] at hdev
  rw [followClusterChain, d.readBytes_eq, if_pos (by omega)]
  simp only
  refine congrArg (fun w => nextOf (entryValue w)) (u32At_congr fun k _ => ?_)
  rw [fatAddr]
  congr 1
  omega

end

section

variable {bpb : Fat32Bpb} {d d' : Disk} {c : Nat}

theorem findSome?_congr {α β : Type} {f g : α → Option β} {l : List α}
    (h : ∀ a ∈ l, f a = g a) : l.findSome? f = l.findSome? g := by
  induction l with
  | nil => rfl
  | cons a rest ih =>
    rw [List.findSome?_cons, List.findSome?_cons, h a List.mem_cons_self,
      ih fun b hb => h b (List.mem_cons_of_mem a hb)]

theorem findSome?_range_eq_some_iff {β : Type} {f : Nat → Option β} {n : Nat} {b : β} :
    (List.range n).findSome? f = some b ↔ ∃ a < n, f a = some b ∧ ∀ x < a, f x = none := by
  induction n with
  | zero => simp
  | succ n ih =>
    rw [List.range_succ, List.findSome?_append, Option.or_eq_some_iff, ih]
    constructor
    · rintro (⟨a, ha, hb, hbefore⟩ | ⟨hnone, hlast⟩)
      · exact ⟨a, by omega, hb, hbefore⟩
      · refine ⟨n, by omega, by simpa using hlast, fun x hx => ?_⟩
        exact List.findSome?_eq_none_iff.mp hnone x (List.mem_range.mpr hx)
    · rintro ⟨a, ha, hb, hbefore⟩
      rcases Nat.lt_succ_iff_lt_or_eq.mp ha with hlt | rfl
      · exact Or.inl ⟨a, hlt, hb, hbefore⟩
      · refine Or.inr ⟨?_, by simpa using hb⟩
        exact List.findSome?_eq_none_iff.mpr fun x hx => hbefore x (List.mem_range.mp hx)

theorem findSome?_range_eq_none_iff {β : Type} {f : Nat → Option β} {n : Nat} :
    (List.range n).findSome? f = none ↔ ∀ x < n, f x = none := by
  simp [List.findSome?_eq_none_iff]

/-- What `find_free_cluster` finds at entry `j` of sector `sec`. -/
def freeAt (bpb : Fat32Bpb) (d : Disk) (sec j : Nat) : Option Nat :=
  if sec * 128 + j < 2 ∨ bpb.maxClusters ≤ sec * 128 + j then none
  else if fatEntry bpb d (sec * 128 + j) = 0 then some ((sec * 128 + j) % UInt32.size)
  else none

theorem freeAt_eq_some_iff {sec j r : Nat} : freeAt bpb d sec j = some r ↔
      FreeCluster bpb d (sec * 128 + j) ∧ r = (sec * 128 + j) % UInt32.size := by
  unfold freeAt FreeCluster
  by_cases hrange : sec * 128 + j < 2 ∨ bpb.maxClusters ≤ sec * 128 + j
  · rw [if_pos hrange]
    simp only [reduceCtorEq, false_iff]
    omega
  · rw [if_neg hrange]
    by_cases hzero : fatEntry bpb d (sec * 128 + j) = 0
    · simp only [hzero, ↓reduceIte, Option.some.injEq, and_true]
      omega
    · simp [hzero]

theorem freeAt_eq_none_iff {sec j : Nat} :
    freeAt bpb d sec j = none ↔ ¬ FreeCluster bpb d (sec * 128 + j) := by
  constructor
  · intro hnone hfree
    have hsome := freeAt_eq_some_iff.mpr ⟨hfree, rfl⟩
    rw [hnone] at hsome
    cases hsome
  · intro hfree
    cases hat : freeAt bpb d sec j with
    | none => rfl
    | some r => exact absurd (freeAt_eq_some_iff.mp hat).1 hfree

theorem findFreeCluster_eq (hdev : bpb.TableOnDevice d) : findFreeCluster bpb d =
      (List.range bpb.sectorsPerFat32).findSome? fun sec =>
        (List.range 128).findSome? fun j => freeAt bpb d sec j := by
  refine findSome?_congr fun sec hsec => ?_
  have hlt := bpb.copySector_lt bpb.numFats_pos (List.mem_range.mp hsec)
  rw [TableOnDevice] at hdev
  rw [d.readBytes_eq, if_pos (by omega)]
  simp only [freeInSector]
  refine findSome?_congr fun j hj => ?_
  have hcluster : (sec * 512 + 4 * j) / 4 = sec * 128 + j := by omega
  have hword : u32At (fun k => d.byte (512 * (bpb.fatStartSector + sec) + k)) (4 * j) =
      u32At d.byte (bpb.fatAddr 0 (sec * 128 + j)) := by
    refine u32At_congr fun k _ => ?_
    rw [fatAddr]
    congr 1
    omega
  rw [hcluster, hword, freeAt, fatEntry]

/-- `find_free_cluster` finds the free cluster with the smallest number, cut to
32 bits. -/
theorem findFreeCluster_eq_some_iff (hdev : bpb.TableOnDevice d) {r : Nat} :
    findFreeCluster bpb d = some r ↔ ∃ c, LeastFree bpb d c ∧ r = c % UInt32.size := by
  rw [findFreeCluster_eq hdev, findSome?_range_eq_some_iff]
  constructor
  · rintro ⟨sec, -, hsec, hbefore⟩
    obtain ⟨j, hj, hat, hless⟩ := findSome?_range_eq_some_iff.mp hsec
    obtain ⟨hfree, hr⟩ := freeAt_eq_some_iff.mp hat
    refine ⟨sec * 128 + j, ⟨hfree, fun c' hc' => ?_⟩, hr⟩
    rw [← Nat.div_add_mod' c' 128, ← freeAt_eq_none_iff]
    by_cases hsame : c' / 128 = sec
    · rw [hsame]
      exact hless _ (by omega)
    · exact findSome?_range_eq_none_iff.mp (hbefore _ (by omega)) _ (by omega)
  · rintro ⟨c, ⟨hfree, hleast⟩, hr⟩
    have hmax := hfree.2.1
    rw [bpb.maxClusters_eq] at hmax
    have hsplit := Nat.div_add_mod' c 128
    refine ⟨c / 128, by omega, findSome?_range_eq_some_iff.mpr
      ⟨c % 128, by omega, ?_, fun x hx => ?_⟩, fun sec hsec => ?_⟩
    · rw [freeAt_eq_some_iff, hsplit]
      exact ⟨hfree, hr⟩
    · rw [freeAt_eq_none_iff]
      exact hleast _ (by omega)
    · rw [findSome?_range_eq_none_iff]
      intro j hj
      rw [freeAt_eq_none_iff]
      exact hleast _ (by omega)

theorem findFreeCluster_eq_none_iff (hdev : bpb.TableOnDevice d) :
    findFreeCluster bpb d = none ↔ ∀ c, ¬ FreeCluster bpb d c := by
  rw [findFreeCluster_eq hdev, findSome?_range_eq_none_iff]
  constructor
  · intro hnone c hfree
    have hmax := hfree.2.1
    rw [bpb.maxClusters_eq] at hmax
    have hat := findSome?_range_eq_none_iff.mp (hnone (c / 128) (by omega)) (c % 128) (by omega)
    rw [freeAt_eq_none_iff, Nat.div_add_mod'] at hat
    exact hat hfree
  · intro hnone sec _
    rw [findSome?_range_eq_none_iff]
    exact fun j _ => freeAt_eq_none_iff.mpr (hnone _)

end

section

variable {bpb : Fat32Bpb} {d d' d'' : Disk} {c v : Nat} {prev : Option Nat}

structure SameData (bpb : Fat32Bpb) (d d' : Disk) : Prop where
  total : d'.totalSectors = d.totalSectors
  data : ∀ a, 512 * bpb.dataStartSector ≤ a → d'.byte a = d.byte a
  agree : bpb.CopiesAgree d → bpb.CopiesAgree d'

theorem SameData.refl (bpb : Fat32Bpb) (d : Disk) : SameData bpb d d :=
  ⟨rfl, fun _ _ => rfl, id⟩

theorem SameData.trans (h : SameData bpb d d') (h' : SameData bpb d' d'') : SameData bpb d d'' where
  total := h'.total.trans h.total
  data a ha := (h'.data a ha).trans (h.data a ha)
  agree hagree := h'.agree (h.agree hagree)

theorem SameData.tableOnDevice (h : SameData bpb d d') (hdev : bpb.TableOnDevice d) :
    bpb.TableOnDevice d' := by
  rw [TableOnDevice, h.total]
  exact hdev

theorem FatUpdate.sameData (h : FatUpdate bpb d d' c v) : SameData bpb d d' :=
  ⟨h.total, h.data, h.agree⟩

theorem writePrev_run (hdev : bpb.TableOnDevice d)
    (hprev : ∀ p ∈ prev, p < bpb.maxClusters) (v : Nat) :
    ∃ d', (writePrev bpb prev v).run d = (.ok (), d') ∧ SameData bpb d d' ∧
      ∀ c' < bpb.maxClusters, fatEntry bpb d' c' =
        if prev = some c' then v % 0x10000000 else fatEntry bpb d c' := by
  cases prev with
  | none => exact ⟨d, rfl, .refl bpb d, fun c' _ => by simp⟩
  | some p =>
    obtain ⟨d', hrun, hupdate⟩ := writeFatEntry_run hdev (hprev p rfl) v
    refine ⟨d', hrun, hupdate.sameData, fun c' hc' => ?_⟩
    rw [hupdate.entry c' hc']
    simp only [Option.some.injEq, eq_comm]

/-- A successful allocation: the new cluster ends the chain, its predecessor
names it, and its data is zero. -/
structure ClusterTaken (bpb : Fat32Bpb) (d d' : Disk) (prev : Option Nat) (c : Nat) : Prop where
  total : d'.totalSectors = d.totalSectors
  entry : ∀ c' < bpb.maxClusters, fatEntry bpb d' c' =
    if prev = some c' then c % 0x10000000
    else if c' = c then endOfChain
    else fatEntry bpb d c'
  zero : ∀ k < bpb.bytesPerCluster, clusterByte bpb d' c k = 0
  data : ∀ a, 512 * bpb.dataStartSector ≤ a →
    (a < bpb.clusterAddr c ∨ bpb.clusterAddr c + bpb.bytesPerCluster ≤ a) →
    d'.byte a = d.byte a
  agree : bpb.CopiesAgree d → bpb.CopiesAgree d'

/-- An allocation that failed on the data of the new cluster: the predecessor
ends its chain again. -/
structure Restored (bpb : Fat32Bpb) (d d' : Disk) (prev : Option Nat) : Prop
    extends SameData bpb d d' where
  entry : ∀ c' < bpb.maxClusters, fatEntry bpb d' c' =
    if prev = some c' then endOfChain else fatEntry bpb d c'

theorem table_setBytes {sector count : Nat} {buf : Nat → UInt8}
    (hsector : bpb.dataStartSector ≤ sector) {a : Nat}
    (ha : a < 512 * bpb.dataStartSector) :
    (d.setBytes sector count buf).byte a = d.byte a := by
  rw [Disk.byte_setBytes, if_neg (by omega)]

theorem Fat32Bpb.fatAddr_lt {i : Nat} (hi : i < bpb.numFats) (hc : c < bpb.maxClusters) {k : Nat}
    (hk : k < 4) : bpb.fatAddr i c + k < 512 * bpb.dataStartSector := by
  have hlt := bpb.copySector_lt hi (entrySector_lt hc)
  have hdiv := bpb.fatAddr_div i c hk
  omega

theorem fatEntry_congr (hc : c < bpb.maxClusters)
    (h : ∀ a < 512 * bpb.dataStartSector, d'.byte a = d.byte a) :
    fatEntry bpb d' c = fatEntry bpb d c :=
  congrArg entryValue (u32At_congr fun _ hk =>
    h _ (bpb.fatAddr_lt bpb.numFats_pos hc hk))

theorem copiesAgree_congr (h : ∀ a < 512 * bpb.dataStartSector, d'.byte a = d.byte a)
    (hagree : bpb.CopiesAgree d) : bpb.CopiesAgree d' := by
  have hlt : ∀ i < bpb.numFats, ∀ j < 512 * bpb.sectorsPerFat32,
      bpb.fatAddr i 0 + j < 512 * bpb.dataStartSector := by
    intro i hi j hj
    have hcopy := bpb.copySector_lt hi (show j / 512 < bpb.sectorsPerFat32 by omega)
    rw [fatAddr]
    omega
  intro i hi j hj
  rw [h _ (hlt i hi j hj), h _ (hlt 0 bpb.numFats_pos j hj)]
  exact hagree i hi j hj

theorem setBytes_cluster (bpb : Fat32Bpb) (d : Disk) (c : Nat) (buf : Nat → UInt8) :
    let d' := d.setBytes (bpb.clusterToSector c) bpb.sectorsPerCluster buf
    (∀ a < 512 * bpb.dataStartSector, d'.byte a = d.byte a) ∧
      (∀ k < bpb.bytesPerCluster, clusterByte bpb d' c k = buf k) ∧
      ∀ a, (a < bpb.clusterAddr c ∨ bpb.clusterAddr c + bpb.bytesPerCluster ≤ a) →
        d'.byte a = d.byte a := by
  refine ⟨fun a ha => table_setBytes (Nat.le_add_right _ _) ha, fun k hk => ?_, fun a ha => ?_⟩
  · rw [bytesPerCluster] at hk
    rw [clusterByte, clusterAddr, Disk.byte_setBytes, if_pos (by omega),
      Nat.add_sub_cancel_left]
  · rw [bytesPerCluster, clusterAddr] at ha
    rw [Disk.byte_setBytes, if_neg (by omega)]

theorem allocateCluster_of_none (hdev : bpb.TableOnDevice d)
    (hfree : ∀ c, ¬ FreeCluster bpb d c) : allocateCluster bpb prev d = (none, d) := by
  rw [allocateCluster, (findFreeCluster_eq_none_iff hdev).mpr hfree]

/-- The common start of every allocation that finds a free cluster: it is marked
and linked before its data is cleared. -/
theorem allocateCluster_linked (hdev : bpb.TableOnDevice d)
    (hprev : ∀ p ∈ prev, p < bpb.maxClusters) (hfree : LeastFree bpb d c)
    (hc : c < UInt32.size) :
    ∃ d₂, allocateCluster bpb prev d = clearCluster bpb prev c d₂ ∧ SameData bpb d d₂ ∧
      ∀ c' < bpb.maxClusters, fatEntry bpb d₂ c' =
        if prev = some c' then c % 0x10000000
        else if c' = c then endOfChain
        else fatEntry bpb d c' := by
  obtain ⟨d₁, hmark, hupdate⟩ := writeFatEntry_run hdev hfree.1.2.1 endOfChain
  obtain ⟨d₂, hlink, hsame, hentry⟩ :=
    writePrev_run (hupdate.sameData.tableOnDevice hdev) hprev c
  have hfind : findFreeCluster bpb d = some c :=
    (findFreeCluster_eq_some_iff hdev).mpr ⟨c, hfree, (Nat.mod_eq_of_lt hc).symm⟩
  refine ⟨d₂, ?_, hupdate.sameData.trans hsame, fun c' hc' => ?_⟩
  · rw [allocateCluster, hfind]
    simp only [hmark, hlink]
  · rw [hentry c' hc', hupdate.entry c' hc', endOfChain_mod]

theorem clearCluster_of_fit (hfit : bpb.ClusterOnDevice d c) : clearCluster bpb prev c d =
      (some c, d.setBytes (bpb.clusterToSector c) bpb.sectorsPerCluster fun _ => 0) := by
  rw [ClusterOnDevice] at hfit
  rw [clearCluster, d.writeBytes_eq, if_pos hfit]

theorem clearCluster_of_not_fit (hfit : ¬ bpb.ClusterOnDevice d c) : clearCluster bpb prev c d =
      (none, ((writeFatEntry bpb c 0).run ((writePrev bpb prev endOfChain).run d).2).2) := by
  rw [ClusterOnDevice] at hfit
  rw [clearCluster, d.writeBytes_eq, if_neg hfit]

theorem SameData.clusterOnDevice_iff (h : SameData bpb d d') :
    bpb.ClusterOnDevice d' c ↔ bpb.ClusterOnDevice d c := by
  rw [ClusterOnDevice, ClusterOnDevice, h.total]

theorem allocateCluster_run (hdev : bpb.TableOnDevice d)
    (hprev : ∀ p ∈ prev, p < bpb.maxClusters) (hfree : LeastFree bpb d c)
    (hc : c < UInt32.size) (hfit : bpb.ClusterOnDevice d c) :
    ∃ d', allocateCluster bpb prev d = (some c, d') ∧ ClusterTaken bpb d d' prev c := by
  obtain ⟨d₂, halloc, hsame, hentry⟩ := allocateCluster_linked hdev hprev hfree hc
  obtain ⟨htable, hbuf, hrest⟩ := setBytes_cluster bpb d₂ c fun _ => 0
  rw [clearCluster_of_fit (hsame.clusterOnDevice_iff.mpr hfit)] at halloc
  refine ⟨_, halloc, hsame.total, fun c' hc' => ?_, hbuf, fun a ha hout => ?_,
    fun hagree => copiesAgree_congr htable (hsame.agree hagree)⟩
  · rw [fatEntry_congr hc' htable, hentry c' hc']
  · rw [hrest a hout, hsame.data a ha]

theorem allocateCluster_restored (hdev : bpb.TableOnDevice d)
    (hprev : ∀ p ∈ prev, p < bpb.maxClusters) (hne : prev ≠ some c)
    (hfree : LeastFree bpb d c) (hc : c < UInt32.size)
    (hfit : ¬ bpb.ClusterOnDevice d c) :
    ∃ d', allocateCluster bpb prev d = (none, d') ∧ Restored bpb d d' prev := by
  obtain ⟨d₂, halloc, hsame, hentry⟩ := allocateCluster_linked hdev hprev hfree hc
  obtain ⟨d₃, hunlink, hsame', hentry'⟩ :=
    writePrev_run (hsame.tableOnDevice hdev) hprev endOfChain
  obtain ⟨d₄, hclear, hupdate⟩ := writeFatEntry_run
    (hsame'.tableOnDevice (hsame.tableOnDevice hdev)) hfree.1.2.1 0
  rw [clearCluster_of_not_fit (mt hsame.clusterOnDevice_iff.mp hfit), hunlink, hclear] at halloc
  refine ⟨d₄, halloc, (hsame.trans hsame').trans hupdate.sameData, fun c' hc' => ?_⟩
  rw [hupdate.entry c' hc', hentry' c' hc', hentry c' hc']
  by_cases heq : c' = c
  · subst heq
    rw [if_pos rfl, if_neg hne, hfree.1.2.2, Nat.zero_mod]
  · rw [if_neg heq, if_neg heq]
    by_cases hp : prev = some c'
    · rw [if_pos hp, if_pos hp, endOfChain_mod]
    · rw [if_neg hp, if_neg hp, if_neg hp]

def linkOf (bpb : Fat32Bpb) (d : Disk) (c : Nat) : Option Nat := nextOf (fatEntry bpb d c)

structure Freed (bpb : Fat32Bpb) (d d' : Disk) (chain : List Nat) : Prop
    extends SameData bpb d d' where
  entry : ∀ c' < bpb.maxClusters, fatEntry bpb d' c' =
    if c' ∈ chain then 0 else fatEntry bpb d c'

theorem freeFrom_succ (hdev : bpb.TableOnDevice d) (hc : 2 ≤ c)
    (hmax : c < bpb.maxClusters) (fuel : Nat) :
    ∃ d', FatUpdate bpb d d' c 0 ∧ (freeFrom bpb (fuel + 1) c).run d =
        match linkOf bpb d c with
        | some n => (freeFrom bpb fuel n).run d'
        | none => (.ok (), d') := by
  obtain ⟨d', hrun, hupdate⟩ := writeFatEntry_run hdev hmax 0
  refine ⟨d', hupdate, ?_⟩
  have hget : (gets (followClusterChain bpb · c) : FatM (Option Nat)).run d =
      (.ok (linkOf bpb d c), d) := by
    rw [run_gets, followClusterChain_eq hdev hmax, linkOf]
  rw [freeFrom, if_neg (by omega), run_bind_of_ok hget, run_bind_of_ok hrun]
  cases hnext : linkOf bpb d c with
  | none => rfl
  | some n =>
    have hlt := (nextOf_eq_some_iff.mp hnext).2.2
    simp only [hlt, ↓reduceIte]

theorem FatUpdate.linkOf_ne (h : FatUpdate bpb d d' c v) {c' : Nat}
    (hmax : c' < bpb.maxClusters) (hne : c' ≠ c) : linkOf bpb d' c' = linkOf bpb d c' := by
  rw [linkOf, linkOf, h.entry c' hmax, if_neg hne]

/-- The loop of `free_cluster_chain` clears each link after it has read it, so
the rest of the chain is still linked when it gets there. -/
theorem freeFrom_run {rest : List Nat} {fuel : Nat} (hdev : bpb.TableOnDevice d)
    (hlinked : Linked (linkOf bpb d) (c :: rest)) (hnodup : (c :: rest).Nodup)
    (hrange : ∀ c' ∈ c :: rest, 2 ≤ c' ∧ c' < bpb.maxClusters)
    (hfuel : (c :: rest).length ≤ fuel) :
    ∃ d', (freeFrom bpb fuel c).run d = (.ok (), d') ∧ Freed bpb d d' (c :: rest) := by
  obtain ⟨hc, hmax⟩ := hrange c List.mem_cons_self
  induction rest generalizing c d fuel with
  | nil =>
    cases fuel with
    | zero => simp at hfuel
    | succ fuel =>
      obtain ⟨d', hupdate, hrun⟩ := freeFrom_succ hdev hc hmax fuel
      rw [show linkOf bpb d c = none from hlinked] at hrun
      refine ⟨d', hrun, hupdate.sameData, fun c' hc' => ?_⟩
      rw [hupdate.entry c' hc']
      simp
  | cons n rest ih =>
    cases fuel with
    | zero => simp at hfuel
    | succ fuel =>
      obtain ⟨d₁, hupdate, hrun⟩ := freeFrom_succ hdev hc hmax fuel
      rw [show linkOf bpb d c = some n from hlinked.1] at hrun
      rw [List.nodup_cons] at hnodup
      have hrest : ∀ c' ∈ n :: rest, 2 ≤ c' ∧ c' < bpb.maxClusters :=
        fun c' hc' => hrange c' (List.mem_cons_of_mem c hc')
      have hstill : Linked (linkOf bpb d₁) (n :: rest) :=
        hlinked.2.congr fun c' hc' => hupdate.linkOf_ne (hrest c' hc').2
          fun heq => hnodup.1 (heq ▸ hc')
      obtain ⟨hn, hnmax⟩ := hrest n List.mem_cons_self
      obtain ⟨d', hrun', hfreed⟩ := ih (hupdate.sameData.tableOnDevice hdev) hstill
        hnodup.2 hrest (Nat.le_of_succ_le_succ hfuel) hn hnmax
      refine ⟨d', hrun.trans hrun', hupdate.sameData.trans hfreed.toSameData, fun c' hc' => ?_⟩
      rw [hfreed.entry c' hc', hupdate.entry c' hc']
      by_cases heq : c' = c <;> simp [heq]

end

end ZiqaKernel
