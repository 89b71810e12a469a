/-
What `load_elf` leaves in memory.  A round of its loop adds the pages and the region of
the header that it reads; the file has its headers where the format places them.
-/
import ZiqaKernel.ElfLoader

namespace ZiqaKernel

open Elf64Phdr Elf64Header

/-! Files -/

section

variable (hdr : Elf64Header) (b : List UInt8)

/-- The program header `i` of the file. -/
def Elf64Header.phdr (i : Nat) : Elf64Phdr := phdrAt b (hdr.phoff + i * hdr.phentsize)

/-- The program header that the loader reads in round `i`. -/
def Elf64Header.readPhdr (i : Nat) : Elf64Phdr := phdrAt b (hdr.headerOffset i)

end

namespace Elf64Phdr

variable (ph : Elf64Phdr) (b : List UInt8) (base : Nat)

/-- The byte that the file gives for place `x` of the segment. -/
def fileByte (x : Nat) : UInt8 := if x < ph.filesz then b.getD (ph.offset + x) 0 else 0

def InPages (w : Nat) : Prop := ph.start base ≤ w ∧ w < ph.start base + ph.size base

instance (w : Nat) : Decidable (ph.InPages base w) := inferInstanceAs (Decidable (_ ∧ _))

def loadedByte (w : Nat) : UInt8 :=
  if w - ph.start base < ph.fileSize base then
    b.getD (ph.fileOffset base + (w - ph.start base)) 0
  else 0

def Grants (vma : VmaRecord) : Prop :=
  vma.flags.executable = ph.flags.testBit 0 ∧ vma.flags.writable = ph.flags.testBit 1 ∧
    vma.readable = ph.flags.testBit 2

def IsRegion (vma : VmaRecord) : Prop :=
  ∃ stop, vma = ph.region base stop ∧ ∀ w < userAddrMax, w < stop ↔ w < ph.start base + ph.size base

end Elf64Phdr

/-- An executable file whose segments lie in user space and have no address in common. -/
structure WellFormedElf (b : List UInt8) (hdr : Elf64Header) : Prop where
  parsed : parseHeader b = .ok hdr
  entsize : 0 < hdr.phnum → 56 ≤ hdr.phentsize
  table : hdr.phoff + hdr.phnum * hdr.phentsize ≤ b.length
  inFile : ∀ i < hdr.phnum, (hdr.phdr b i).type = 1 → (hdr.phdr b i).filesz ≤ (hdr.phdr b i).memsz ∧
      (hdr.phdr b i).offset + (hdr.phdr b i).filesz ≤ b.length
  inUser : ∀ i < hdr.phnum, (hdr.phdr b i).type = 1 →
    (hdr.phdr b i).addr hdr.loadBase + (hdr.phdr b i).memsz ≤ userAddrMax
  apart : ∀ i < hdr.phnum, ∀ j < hdr.phnum, (hdr.phdr b i).type = 1 →
    (hdr.phdr b j).type = 1 → i ≠ j → ∀ x < (hdr.phdr b i).memsz, ∀ y < (hdr.phdr b j).memsz,
      (hdr.phdr b i).addr hdr.loadBase + x ≠ (hdr.phdr b j).addr hdr.loadBase + y

def ImageMatches (b : List UInt8) (hdr : Elf64Header) (root : Nat) (proc : ElfProcess) : Prop :=
  ∀ i < hdr.phnum, (hdr.phdr b i).type = 1 → ∀ x < (hdr.phdr b i).memsz,
    (∃ vma ∈ proc.vmas, vma.contains ((hdr.phdr b i).addr hdr.loadBase + x) = true ∧
      (hdr.phdr b i).Grants vma) ∧
    byteForUser proc.memory root ((hdr.phdr b i).addr hdr.loadBase + x) =
      some ((hdr.phdr b i).fileByte b x)

/-- The segments that the loader reads off the file give each address of the file's own
segments the permissions and the byte that belong there. -/
def ReadsSegments (b : List UInt8) (hdr : Elf64Header) : Prop :=
  ∀ i < hdr.phnum, (hdr.phdr b i).type = 1 → ∀ x < (hdr.phdr b i).memsz,
    ∃ j < hdr.phnum, (hdr.readPhdr b j).type = 1 ∧
      (hdr.readPhdr b j).InPages hdr.loadBase ((hdr.phdr b i).addr hdr.loadBase + x) ∧
      (∀ n < 3, (hdr.readPhdr b j).flags.testBit n = (hdr.phdr b i).flags.testBit n) ∧
      (hdr.readPhdr b j).loadedByte b hdr.loadBase ((hdr.phdr b i).addr hdr.loadBase + x) =
        (hdr.phdr b i).fileByte b x

/-! Pages of a segment -/

section

variable {ph : Elf64Phdr} {b : List UInt8} {base w : Nat}

theorem pageData_getD (b : List UInt8) (fileOffset fileSize k : Nat) {r : Nat} (hr : r < 4096) :
    ((pageData b fileOffset fileSize k).getD []).getD r 0 =
      if 4096 * k + r < fileSize then b.getD (fileOffset + (4096 * k + r)) 0 else 0 := by
  rw [pageData]
  split
  · next h =>
    rw [Option.getD_some, List.getD_eq_getElem?_getD, List.getElem?_take]
    by_cases hin : 4096 * k + r < fileSize
    · rw [if_pos hin, if_pos (by omega), List.getElem?_drop, ← List.getD_eq_getElem?_getD,
        Nat.add_assoc]
    · rw [if_neg hin, if_neg (by omega)]
      rfl
  · next h =>
    by_cases hin : 4096 * k + r < fileSize
    · have hpast : b.getD (fileOffset + (4096 * k + r)) 0 = 0 :=
        List.getD_eq_default _ _ (by omega)
      rw [if_pos hin, hpast]
      rfl
    · rw [if_neg hin]
      rfl

theorem Elf64Phdr.start_add_size (h : ph.addr base + ph.memsz ≤ 0x7fffffffffff) :
    ph.start base + ph.size base ≤ userAddrMax := by
  unfold start size diff start pageStart userAddrMax
  omega

theorem Elf64Phdr.inPages_iff (hend : ph.start base + ph.size base ≤ userAddrMax)
    (hw : w < userAddrMax) :
    ph.InPages base w ↔ ∃ k ∈ List.range ((ph.size base + 4095) / 4096),
      SamePage (ph.start base + 4096 * k) w := by
  unfold userAddrMax at hend hw
  have hstart : ph.start base % 4096 = 0 := Nat.mul_mod_left _ _
  have hsize : ph.size base % 4096 = 0 := Nat.mul_mod_left _ _
  simp only [InPages, SamePage, List.mem_range]
  constructor
  · rintro ⟨hlow, hhigh⟩
    refine ⟨(w - ph.start base) / 4096, by omega, ?_⟩
    congr 1
    omega
  · rintro ⟨k, hk, hsame⟩
    omega

theorem Elf64Phdr.addr_inPages {x : Nat} (hx : x < ph.memsz) :
    ph.InPages base (ph.addr base + x) := by
  unfold InPages start size diff start pageStart
  omega

theorem Elf64Phdr.isRegion_region {stop : Nat} (hend : ph.start base + ph.size base ≤ userAddrMax)
    (hstop : virtAddrAdd (ph.start base) (ph.size base) = some stop) :
    ph.IsRegion base (ph.region base stop) := by
  refine ⟨stop, rfl, fun w hw => ?_⟩
  unfold userAddrMax at hend hw
  rw [virtAddrAdd, Nat.mod_eq_of_lt (by omega), virtAddrNew] at hstop
  split_ifs at hstop <;> have heq := Option.some.inj hstop <;> omega

theorem Elf64Phdr.IsRegion.contains_iff {vma : VmaRecord} (h : ph.IsRegion base vma)
    (hw : w < userAddrMax) : vma.contains w = true ↔ ph.InPages base w := by
  obtain ⟨stop, rfl, hstop⟩ := h
  rw [Vma.contains, Bool.and_eq_true, decide_eq_true_eq, decide_eq_true_eq]
  exact and_congr_right fun _ => hstop w hw

theorem Elf64Phdr.IsRegion.grants {vma : VmaRecord} (h : ph.IsRegion base vma) : ph.Grants vma := by
  obtain ⟨stop, rfl, -⟩ := h
  exact ⟨rfl, rfl, rfl⟩

end

/-- The loader reads the segments of a file whose program headers lie in the first 64 KiB
from `e_phoff` on, if every segment has as many bytes before it in the file as in its first
page. -/
theorem readsSegments_of_near {b : List UInt8} {hdr : Elf64Header} (hwf : WellFormedElf b hdr)
    (hlength : b.length < 2 ^ 64) (hnear : ∀ i < hdr.phnum, i * hdr.phentsize ≤ 0xffff)
    (hdiff : ∀ i < hdr.phnum, (hdr.phdr b i).type = 1 →
      (hdr.phdr b i).diff hdr.loadBase ≤ (hdr.phdr b i).offset) :
    ReadsSegments b hdr := by
  intro i hi htype x hx
  have hread : hdr.readPhdr b i = hdr.phdr b i := by
    have htable := hwf.table
    have hplace : i * hdr.phentsize ≤ hdr.phnum * hdr.phentsize :=
      Nat.mul_le_mul_right _ (Nat.le_of_lt hi)
    rw [readPhdr, headerOffset, Nat.min_eq_left (hnear i hi),
      Nat.min_eq_left (by omega), phdr]
  rw [← hread] at htype hx ⊢
  refine ⟨i, hi, htype, addr_inPages hx, fun _ _ => rfl, ?_⟩
  rw [hread] at htype ⊢
  have hfits := hdiff i hi htype
  have hplace : (hdr.phdr b i).addr hdr.loadBase + x - (hdr.phdr b i).start hdr.loadBase =
      (hdr.phdr b i).diff hdr.loadBase + x := by
    have hle : (hdr.phdr b i).start hdr.loadBase ≤ (hdr.phdr b i).addr hdr.loadBase :=
      Nat.div_mul_le_self _ _
    rw [diff]
    omega
  rw [loadedByte, hplace, Elf64Phdr.fileByte, fileSize, fileOffset]
  by_cases hfile : x < (hdr.phdr b i).filesz
  · rw [if_pos hfile, if_pos (by omega), ← Nat.add_assoc, Nat.sub_add_cancel hfits]
  · rw [if_neg hfile, if_neg (by omega)]

/-! Rounds of the loop -/

theorem loadHeader_eq [Mapper] {b : List UInt8} {hdr : Elf64Header} {i : Nat} (root : Nat)
    (hfound : hdr.headerOffset i + 56 ≤ b.length) (hlength : b.length < 2 ^ 64) (s : ElfLoop) :
    loadHeader b hdr root s i =
      if (hdr.readPhdr b i).type = 1 then loadSegment b hdr root (hdr.readPhdr b i) s
      else if (hdr.readPhdr b i).type = 3 then loadInterp b (hdr.readPhdr b i) s
      else .ok s := by
  rw [loadHeader, parsePhdr, if_neg (by omega), if_neg (by omega)]
  rfl

theorem loadElf_other [Mapper] {b : List UInt8} {hdr : Elf64Header} {root v : Nat} {proc : ElfProcess}
    (hparsed : parseHeader b = .ok hdr) (hlength : b.length < 2 ^ 64)
    (hentry : ¬ 2 ^ 64 ≤ hdr.entry + hdr.loadBase)
    (hcanonical : virtAddrNew (hdr.entry + hdr.loadBase) = some v)
    (hother : ∀ i < hdr.phnum, hdr.headerOffset i + 56 ≤ b.length ∧
      (hdr.readPhdr b i).type ≠ 1 ∧ (hdr.readPhdr b i).type ≠ 3) :
    ∃ proc', loadElf b root proc = .ok proc' ∧ proc'.vmas = proc.vmas := by
  have hrun : ∀ is : List Nat, (∀ i ∈ is, i < hdr.phnum) → ∀ s,
      loadHeaders b hdr root is s = .ok s := by
    intro is his s
    induction is with
    | nil => rfl
    | cons i rest ih =>
      obtain ⟨hi, hrest⟩ := List.forall_mem_cons.mp his
      obtain ⟨hfound, hload, hinterp⟩ := hother i hi
      rw [loadHeaders, loadHeader_eq root hfound hlength, if_neg hload, if_neg hinterp]
      exact ih hrest
  rw [loadElf, hparsed]
  dsimp only
  rw [if_neg hentry, hcanonical]
  dsimp only
  rw [hrun _ fun i hi => List.mem_range.mp hi]
  exact ⟨_, rfl, rfl⟩

section

variable {b : List UInt8} {hdr : Elf64Header} {root : Nat}

/-- From `m` to `m'` the pages of the segment have been mapped. -/
structure SegmentMapped (b : List UInt8) (base root : Nat) (ph : Elf64Phdr) (m m' : PhysMemory) :
    Prop where
  space : PageSpace m' root
  vacant : ∀ w, ph.InPages base w → viewAt m root w = none
  shown : ∀ w, ph.InPages base w → viewAt m' root w =
    some (regionFlagsToPageFlags ph.regionFlags, ph.loadedByte b base w)
  way : ∀ w, ph.InPages base w → UserWay m'.tables w root 3
  kept : ∀ w < userAddrMax, ¬ ph.InPages base w → viewAt m' root w = viewAt m root w
  wayKept : ∀ w < userAddrMax, (viewAt m root w).isSome → UserWay m.tables w root 3 →
    UserWay m'.tables w root 3
  room : m.free.length ≤ m'.free.length + 4 * ((ph.size base + 4095) / 4096)

theorem segmentMapped_of_regionMapped {ph : Elf64Phdr} {base : Nat} {m m' : PhysMemory}
    (huser : ph.addr base + ph.memsz ≤ 0x7fffffffffff)
    (h : RegionMapped m m' root (ph.start base) (regionFlagsToPageFlags ph.regionFlags)
      (pageData b (ph.fileOffset base) (ph.fileSize base))
      (List.range ((ph.size base + 4095) / 4096))) :
    SegmentMapped b base root ph m m' := by
  have hend := start_add_size huser
  have hlt : ∀ w, ph.InPages base w → w < userAddrMax := fun w hw => lt_of_lt_of_le hw.2 hend
  refine ⟨h.space, fun w hw => ?_, fun w hw => ?_, fun w hw => ?_, fun w hlow hw => ?_,
    fun w hlow => h.userKept w (lowerHalf_of_lt hlow), ?_⟩
  · obtain ⟨k, hk, hpage⟩ := (inPages_iff hend (hlt w hw)).mp hw
    exact (viewAt_eq_none_congr hpage).mp (h.vacant k hk)
  · obtain ⟨k, hk, hpage⟩ := (inPages_iff hend (hlt w hw)).mp hw
    rw [h.hit w k hk hpage, pageData_getD _ _ _ _ (Nat.mod_lt w (by decide)), loadedByte]
    have hplace : 4096 * k + w % 4096 = w - ph.start base := by
      have hstart : ph.start base % 4096 = 0 := Nat.mul_mod_left _ _
      have hmem := List.mem_range.mp hk
      have hlow := hlt w hw
      unfold SamePage at hpage
      unfold userAddrMax at hlow hend
      omega
    rw [hplace]
  · obtain ⟨k, hk, hpage⟩ := (inPages_iff hend (hlt w hw)).mp hw
    exact h.user w k hk hpage rfl
  · apply h.miss w (lowerHalf_of_lt hlow)
    intro k hk hpage
    exact hw ((inPages_iff hend hlow).mpr ⟨k, hk, hpage⟩)
  · have hroom := h.room
    rwa [List.length_range] at hroom

structure SegmentAdded (b : List UInt8) (base root : Nat) (ph : Elf64Phdr) (p p' : ElfProcess) :
    Prop where
  user : ph.addr base + ph.memsz ≤ 0x7fffffffffff
  mapped : SegmentMapped b base root ph p.memory p'.memory
  region : ∃ vma, ph.IsRegion base vma ∧ p'.vmas = addRecord p.vmas vma

variable {s s' : ElfLoop}

theorem notePhdr_keeps {ph : Elf64Phdr} (h : notePhdr hdr ph s = .ok s') :
    s'.proc.memory = s.proc.memory ∧ s'.proc.vmas = s.proc.vmas := by
  unfold notePhdr at h
  split_ifs at h
  all_goals
    obtain rfl := Except.ok.inj h
    exact ⟨rfl, rfl⟩

theorem loadSegment_ok [Mapper] [Mapper.MapsPages] {ph : Elf64Phdr} (hspace : PageSpace s.proc.memory root)
    (h : loadSegment b hdr root ph s = .ok s') :
    SegmentAdded b hdr.loadBase root ph s.proc s'.proc := by
  unfold loadSegment at h
  dsimp only at h
  split_ifs at h with hvaddr hwrap hkernel hsize
  have huser := Nat.le_of_not_lt hkernel
  have hend := start_add_size huser
  split at h
  · cases h
  · next stop hstop =>
    split at h
    · cases h
    · next m hmap =>
      have hlow : ∀ k ∈ List.range ((ph.size hdr.loadBase + 4095) / 4096),
          ph.start hdr.loadBase + 4096 * k < userAddrMax := by
        intro k hk
        have hk := List.mem_range.mp hk
        omega
      have hmapped := segmentMapped_of_regionMapped huser (mapElfRegion_ok hspace rfl hlow hmap)
      have hregion := isRegion_region hend hstop
      obtain ⟨hmemory, hvmas⟩ := notePhdr_keeps h
      exact ⟨huser, hmemory ▸ hmapped, _, hregion, hvmas⟩

theorem loadInterp_keeps {ph : Elf64Phdr} (h : loadInterp b ph s = .ok s') :
    s'.proc.memory = s.proc.memory ∧ s'.proc.vmas = s.proc.vmas := by
  unfold loadInterp at h
  dsimp only at h
  split_ifs at h
  all_goals
    obtain rfl := Except.ok.inj h
    exact ⟨rfl, rfl⟩

/-- The rounds `done` have been made, from a process with the regions `vmas`. -/
structure Loaded (b : List UInt8) (hdr : Elf64Header) (root : Nat) (vmas : List VmaRecord)
    (done : List Nat) (p : ElfProcess) : Prop where
  space : PageSpace p.memory root
  user : ∀ i ∈ done, (hdr.readPhdr b i).type = 1 →
    (hdr.readPhdr b i).addr hdr.loadBase + (hdr.readPhdr b i).memsz ≤ 0x7fffffffffff
  shown : ∀ i ∈ done, (hdr.readPhdr b i).type = 1 →
    ∀ w, (hdr.readPhdr b i).InPages hdr.loadBase w → viewAt p.memory root w =
      some (regionFlagsToPageFlags (hdr.readPhdr b i).regionFlags,
        (hdr.readPhdr b i).loadedByte b hdr.loadBase w)
  way : ∀ i ∈ done, (hdr.readPhdr b i).type = 1 →
    ∀ w, (hdr.readPhdr b i).InPages hdr.loadBase w → UserWay p.memory.tables w root 3
  region : ∀ i ∈ done, (hdr.readPhdr b i).type = 1 →
    ∃ vma ∈ p.vmas, (hdr.readPhdr b i).IsRegion hdr.loadBase vma
  regions : ∀ vma ∈ p.vmas, vma ∈ vmas ∨ ∃ i ∈ done, (hdr.readPhdr b i).type = 1 ∧
    (hdr.readPhdr b i).IsRegion hdr.loadBase vma

variable {vmas : List VmaRecord} {done : List Nat} {i : Nat} {p : ElfProcess}

theorem Loaded.lt_userAddrMax (h : Loaded b hdr root vmas done p) {w : Nat}
    (hi : i ∈ done) (htype : (hdr.readPhdr b i).type = 1)
    (hw : (hdr.readPhdr b i).InPages hdr.loadBase w) : w < userAddrMax :=
  lt_of_lt_of_le hw.2 (start_add_size (h.user i hi htype))

theorem Loaded.first (h : PageSpace p.memory root) : Loaded b hdr root p.vmas [] p := by
  refine ⟨h, ?_, ?_, ?_, ?_, fun vma hmem => .inl hmem⟩
  all_goals exact fun i hi => absurd hi List.not_mem_nil

theorem Loaded.segment {p' : ElfProcess} (h : Loaded b hdr root vmas done p)
    (htype : (hdr.readPhdr b i).type = 1)
    (hadded : SegmentAdded b hdr.loadBase root (hdr.readPhdr b i) p p') :
    Loaded b hdr root vmas (i :: done) p' := by
  obtain ⟨huser, hmapped, vma, hregion, hvmas⟩ := hadded
  -- pages of earlier segments are not pages of this one
  have hold : ∀ j ∈ done, (hdr.readPhdr b j).type = 1 →
      ∀ w, (hdr.readPhdr b j).InPages hdr.loadBase w →
        ¬ (hdr.readPhdr b i).InPages hdr.loadBase w := by
    intro j hj hjtype w hw hin
    have hvacant := hmapped.vacant w hin
    rw [h.shown j hj hjtype w hw] at hvacant
    cases hvacant
  constructor
  · exact hmapped.space
  · exact List.forall_mem_cons.mpr ⟨fun _ => huser, h.user⟩
  · refine List.forall_mem_cons.mpr ⟨fun _ => hmapped.shown, fun j hj hjtype w hw => ?_⟩
    rw [hmapped.kept w (h.lt_userAddrMax hj hjtype hw) (hold j hj hjtype w hw)]
    exact h.shown j hj hjtype w hw
  · refine List.forall_mem_cons.mpr ⟨fun _ => hmapped.way, fun j hj hjtype w hw => ?_⟩
    apply hmapped.wayKept w (h.lt_userAddrMax hj hjtype hw)
    · rw [h.shown j hj hjtype w hw]
      rfl
    · exact h.way j hj hjtype w hw
  · rw [hvmas]
    refine List.forall_mem_cons.mpr ⟨fun _ => ⟨vma, mem_addRecord.mpr (.inl rfl), hregion⟩,
      fun j hj hjtype => ?_⟩
    obtain ⟨vma', hmem, hregion'⟩ := h.region j hj hjtype
    exact ⟨vma', mem_addRecord.mpr (.inr hmem), hregion'⟩
  · intro vma' hmem
    rw [hvmas, mem_addRecord] at hmem
    rcases hmem with rfl | hmem
    · exact .inr ⟨i, List.mem_cons_self, htype, hregion⟩
    · rcases h.regions vma' hmem with hfirst | ⟨j, hj, hjregion⟩
      · exact .inl hfirst
      · exact .inr ⟨j, List.mem_cons_of_mem i hj, hjregion⟩

theorem Loaded.congr {p' : ElfProcess} (h : Loaded b hdr root vmas done p)
    (hmemory : p'.memory = p.memory) (hvmas : p'.vmas = p.vmas) :
    Loaded b hdr root vmas done p' := by
  obtain ⟨hspace, huser, hshown, hway, hregion, hregions⟩ := h
  rw [← hmemory] at hspace hshown hway
  rw [← hvmas] at hregion hregions
  exact ⟨hspace, huser, hshown, hway, hregion, hregions⟩

theorem Loaded.other (h : Loaded b hdr root vmas done p)
    (htype : (hdr.readPhdr b i).type ≠ 1) : Loaded b hdr root vmas (i :: done) p := by
  constructor
  · exact h.space
  · exact List.forall_mem_cons.mpr ⟨fun ht => absurd ht htype, h.user⟩
  · exact List.forall_mem_cons.mpr ⟨fun ht => absurd ht htype, h.shown⟩
  · exact List.forall_mem_cons.mpr ⟨fun ht => absurd ht htype, h.way⟩
  · exact List.forall_mem_cons.mpr ⟨fun ht => absurd ht htype, h.region⟩
  · intro vma hmem
    rcases h.regions vma hmem with hfirst | ⟨j, hj, hjregion⟩
    · exact .inl hfirst
    · exact .inr ⟨j, List.mem_cons_of_mem i hj, hjregion⟩

theorem Loaded.step [Mapper] [Mapper.MapsPages] (h : Loaded b hdr root vmas done s.proc)
    (hstep : loadHeader b hdr root s i = .ok s') :
    Loaded b hdr root vmas (i :: done) s'.proc := by
  rw [loadHeader, parsePhdr] at hstep
  split_ifs at hstep
  dsimp only at hstep
  split_ifs at hstep with hload hinterp
  · exact h.segment hload (loadSegment_ok h.space hstep)
  · obtain ⟨hmemory, hvmas⟩ := loadInterp_keeps hstep
    exact (h.other hload).congr hmemory hvmas
  · obtain rfl := Except.ok.inj hstep
    exact h.other hload

theorem Loaded.run [Mapper] [Mapper.MapsPages] {is : List Nat} (h : Loaded b hdr root vmas done s.proc)
    (hrun : loadHeaders b hdr root is s = .ok s') :
    Loaded b hdr root vmas (is.reverse ++ done) s'.proc := by
  induction is generalizing s done with
  | nil =>
    obtain rfl := Except.ok.inj hrun
    exact h
  | cons i rest ih =>
    rw [loadHeaders] at hrun
    split at hrun
    · cases hrun
    · next s₁ hstep =>
      rw [List.reverse_cons, List.append_assoc]
      exact ih (h.step hstep) hrun

theorem loadElf_ok [Mapper] [Mapper.MapsPages] {proc proc' : ElfProcess} (hspace : PageSpace proc.memory root)
    (hparsed : parseHeader b = .ok hdr) (hload : loadElf b root proc = .ok proc') :
    Loaded b hdr root proc.vmas (List.range hdr.phnum).reverse proc' := by
  rw [loadElf, hparsed] at hload
  dsimp only at hload
  split_ifs at hload
  split at hload
  · cases hload
  · split at hload
    · cases hload
    · next s hrun =>
      obtain rfl := Except.ok.inj hload
      have hlast := Loaded.run (.first hspace) hrun
      rw [List.append_nil] at hlast
      exact hlast.congr rfl rfl

end

/-! The loaded image -/

section

variable {b : List UInt8} {hdr : Elf64Header} {root : Nat} {proc proc' : ElfProcess}

/-- A process that has no region at the segments of a file finds them in its memory, after
the file has been loaded, exactly if the loader reads them off the file. -/
theorem loadElf_image_iff [Mapper] [Mapper.MapsPages] (hwf : WellFormedElf b hdr) (hspace : PageSpace proc.memory root)
    (hfresh : ∀ vma ∈ proc.vmas, ∀ i < hdr.phnum, (hdr.phdr b i).type = 1 →
      ∀ x < (hdr.phdr b i).memsz, vma.contains ((hdr.phdr b i).addr hdr.loadBase + x) = false)
    (hload : loadElf b root proc = .ok proc') :
    ImageMatches b hdr root proc' ↔ ReadsSegments b hdr := by
  have hloaded := loadElf_ok hspace hwf.parsed hload
  have hmem : ∀ j, j ∈ (List.range hdr.phnum).reverse ↔ j < hdr.phnum := by simp
  refine forall₂_congr fun i hi => forall_congr' fun htype => forall₂_congr fun x hx => ?_
  have hlow : (hdr.phdr b i).addr hdr.loadBase + x < userAddrMax :=
    lt_of_lt_of_le (Nat.add_lt_add_left hx _) (hwf.inUser i hi htype)
  -- the byte in user mode is the one that the round with the page has put there
  have hbyte : ∀ j < hdr.phnum, (hdr.readPhdr b j).type = 1 →
      (hdr.readPhdr b j).InPages hdr.loadBase ((hdr.phdr b i).addr hdr.loadBase + x) →
      byteForUser proc'.memory root ((hdr.phdr b i).addr hdr.loadBase + x) =
        some ((hdr.readPhdr b j).loadedByte b hdr.loadBase
          ((hdr.phdr b i).addr hdr.loadBase + x)) := fun j hj hjtype hin =>
    byteForUser_of_viewAt (hloaded.shown j ((hmem j).mpr hj) hjtype _ hin) rfl rfl
      (hloaded.way j ((hmem j).mpr hj) hjtype _ hin)
  constructor
  · rintro ⟨⟨vma, hvma, hcontains, hgrants⟩, hfile⟩
    rcases hloaded.regions vma hvma with hold | ⟨j, hj, hjtype, hregion⟩
    · rw [hfresh vma hold i hi htype x hx] at hcontains
      cases hcontains
    · have hin := (hregion.contains_iff hlow).mp hcontains
      refine ⟨j, (hmem j).mp hj, hjtype, hin, fun n hn => ?_, ?_⟩
      · obtain ⟨hx0, hw0, hr0⟩ := hregion.grants
        obtain ⟨hx1, hw1, hr1⟩ := hgrants
        interval_cases n
        · exact hx0.symm.trans hx1
        · exact hw0.symm.trans hw1
        · exact hr0.symm.trans hr1
      · rw [hbyte j ((hmem j).mp hj) hjtype hin] at hfile
        exact Option.some.inj hfile
  · rintro ⟨j, hj, hjtype, hin, hflags, hfile⟩
    obtain ⟨vma, hvma, hregion⟩ := hloaded.region j ((hmem j).mpr hj) hjtype
    obtain ⟨hx0, hw0, hr0⟩ := hregion.grants
    refine ⟨⟨vma, hvma, (hregion.contains_iff hlow).mpr hin, ?_, ?_, ?_⟩, ?_⟩
    · exact hx0.trans (hflags 0 (by decide))
    · exact hw0.trans (hflags 1 (by decide))
    · exact hr0.trans (hflags 2 (by decide))
    · rw [hbyte j hj hjtype hin, hfile]

/-! Two files -/

attribute [local instance] levelMapper

/-- A memory with an empty table in frame 0 and `n` free frames. -/
def emptyMemory (n : Nat) : PhysMemory where
  tables _ _ := .unused
  free := List.range' 1 n
  pages _ := .ofFn fun _ => 0

def emptyProcess (n : Nat) : ElfProcess where
  entryPoint := 0
  rip := 0
  elfPhent := 0
  elfPhnum := 0
  elfPhdr := 0
  vmas := []
  interpreter := none
  brk := 0
  memory := emptyMemory n

theorem viewAt_emptyMemory (n w : Nat) : viewAt (emptyMemory n) 0 w = none :=
  viewAt_eq_none_iff.mpr (pageEntry_of_unused fun _ => rfl)

theorem tableAt_emptyMemory {n w j f : Nat} (h : tableAt (emptyMemory n).tables w 4 0 j = some f) :
    j = 0 ∧ f = 0 := by
  cases j with
  | zero => exact ⟨rfl, (Option.some.inj h).symm⟩
  | succ j => cases h

theorem pageSpace_emptyMemory (n : Nat) : PageSpace (emptyMemory n) 0 := by
  refine ⟨fun v w _ _ j _ k _ g hv hw => ?_, fun w _ j _ f _ => .inl rfl, fun w _ j _ f hf h => ?_,
    List.nodup_range', fun w e _ he => ?_⟩
  · rw [(tableAt_emptyMemory hv).1, (tableAt_emptyMemory hw).1]
    exact ⟨rfl, nofun⟩
  · have hfree := (List.mem_range'_1.mp hf).1
    rw [(tableAt_emptyMemory h).2] at hfree
    omega
  · rw [viewAt_eq_none_iff.mp (viewAt_emptyMemory n w)] at he
    cases he

/-- The header of an executable with its program headers at offset 64. -/
def elfFront (phentsize phnum : List UInt8) : List UInt8 :=
  [0x7f, 0x45, 0x4c, 0x46, 2, 1, 1, 0] ++ List.replicate 8 0 ++ [2, 0, 62, 0, 1, 0, 0, 0] ++
    [0x40, 0, 0x40, 0, 0, 0, 0, 0] ++ [64, 0, 0, 0, 0, 0, 0, 0] ++ List.replicate 14 0 ++
    phentsize ++ phnum ++ List.replicate 6 0

/-- A readable segment at `0x400000` with the first bytes of the file. -/
def frontSegment : List UInt8 :=
  [1, 0, 0, 0, 4, 0, 0, 0] ++ List.replicate 8 0 ++ [0, 0, 0x40, 0, 0, 0, 0, 0] ++
    List.replicate 8 0 ++ [64, 0, 0, 0, 0, 0, 0, 0] ++ [100, 0, 0, 0, 0, 0, 0, 0] ++
    [0, 0x10, 0, 0, 0, 0, 0, 0]

def smallFile : List UInt8 := elfFront [56, 0] [1, 0] ++ frontSegment

def smallHeader : Elf64Header := ⟨2, 0x400040, 64, 56, 1⟩

theorem wellFormed_smallFile : WellFormedElf smallFile smallHeader where
  parsed := rfl
  entsize := by decide
  table := by decide +kernel
  inFile := by decide +kernel
  inUser := by decide +kernel
  apart _ hi _ hj _ _ hne :=
    absurd ((Nat.lt_one_iff.mp hi).trans (Nat.lt_one_iff.mp hj).symm) hne

theorem loadElf_smallFile : ∃ proc', loadElf smallFile 0 (emptyProcess 4) = .ok proc' := by
  have hok : (loadElf smallFile 0 (emptyProcess 4)).isOk = true := by decide +kernel
  cases hload : loadElf smallFile 0 (emptyProcess 4) with
  | error f =>
    rw [hload] at hok
    cases hok
  | ok proc' => exact ⟨proc', rfl⟩

/-- A file that is loaded as it should be. -/
theorem imageMatches_smallFile : ∃ proc', loadElf smallFile 0 (emptyProcess 4) = .ok proc' ∧
    ImageMatches smallFile smallHeader 0 proc' := by
  obtain ⟨proc', hload⟩ := loadElf_smallFile
  refine ⟨proc', hload, ?_⟩
  rw [loadElf_image_iff wellFormed_smallFile (pageSpace_emptyMemory 4) 
    (fun _ h => absurd h List.not_mem_nil) hload]
  apply readsSegments_of_near wellFormed_smallFile
  · decide +kernel
  · decide +kernel
  · decide +kernel

/-- Three program headers of 32 KiB each, of which the last one is a segment. -/
def stridedFile : List UInt8 :=
  elfFront [0, 0x80] [3, 0] ++ (List.replicate 65535 0 ++ ((0 :: frontSegment) ++
    List.replicate 32712 0))

def stridedHeader : Elf64Header := ⟨2, 0x400040, 64, 0x8000, 3⟩

theorem length_stridedFile : stridedFile.length = 98368 := by
  have hfront : (elfFront [0, 0x80] [3, 0]).length = 64 := rfl
  have hmiddle : (0 :: frontSegment).length = 57 := rfl
  rw [stridedFile, List.length_append, List.length_append, List.length_append, hfront, hmiddle,
    List.length_replicate, List.length_replicate]

theorem parseHeader_stridedFile : parseHeader stridedFile = .ok stridedHeader := by
  rw [stridedFile, parseHeader_append rfl]
  rfl

theorem phdr_stridedFile_zero {i : Nat} (hi : i < 2) :
    stridedHeader.phdr stridedFile i = ⟨0, 0, 0, 0, 0, 0⟩ := by
  have hoffset : stridedHeader.phoff + i * stridedHeader.phentsize = 64 + i * 0x8000 := rfl
  have hfront : (elfFront [0, 0x80] [3, 0]).length = 64 := rfl
  rw [Elf64Header.phdr, hoffset, stridedFile, phdrAt_append_right (by omega),
    phdrAt_append_left (by rw [List.length_replicate]; omega), phdrAt_replicate_zero]

theorem phdrAt_stridedFile (n : Nat) (hn : n < 2) :
    phdrAt stridedFile (64 + 65535 + n) = phdrAt (0 :: frontSegment) n := by
  have hfront : (elfFront [0, 0x80] [3, 0]).length = 64 := rfl
  have hmiddle : (0 :: frontSegment).length = 57 := rfl
  rw [stridedFile, phdrAt_append_right (by omega),
    phdrAt_append_right (by rw [List.length_replicate]; omega), List.length_replicate, hfront,
    phdrAt_append_left (by omega), show 64 + 65535 + n - 64 - 65535 = n by omega]

theorem phdr_stridedFile_two : stridedHeader.phdr stridedFile 2 = ⟨1, 4, 0, 0x400000, 64, 100⟩ := by
  have hoffset : stridedHeader.phoff + 2 * stridedHeader.phentsize = 64 + 65535 + 1 := rfl
  rw [phdr, hoffset, phdrAt_stridedFile 1 (by decide)]
  rfl

theorem wellFormed_stridedFile : WellFormedElf stridedFile stridedHeader := by
  -- only the third header is one of a segment
  have hlast : ∀ i < stridedHeader.phnum, (stridedHeader.phdr stridedFile i).type = 1 → i = 2 := by
    intro i hi htype
    by_contra hne
    have hi' : i < 3 := hi
    rw [phdr_stridedFile_zero (by omega)] at htype
    cases htype
  refine ⟨parseHeader_stridedFile, by decide, ?_, ?_, ?_, ?_⟩
  · rw [length_stridedFile]
    decide
  · intro i hi htype
    obtain rfl := hlast i hi htype
    rw [phdr_stridedFile_two, length_stridedFile]
    decide
  · intro i hi htype
    obtain rfl := hlast i hi htype
    rw [phdr_stridedFile_two]
    decide
  · intro i hi j hj htype htype' hne
    exact absurd ((hlast i hi htype).trans (hlast j hj htype').symm) hne

theorem readPhdr_stridedFile {i : Nat} (hi : i < 3) :
    (stridedHeader.readPhdr stridedFile i).type ≠ 1 ∧
      (stridedHeader.readPhdr stridedFile i).type ≠ 3 := by
  rcases Nat.lt_succ_iff_lt_or_eq.mp hi with hlt | rfl
  · have hoffset : stridedHeader.headerOffset i =
        stridedHeader.phoff + i * stridedHeader.phentsize := by
      interval_cases i <;> decide
    rw [readPhdr, hoffset, ← phdr, phdr_stridedFile_zero hlt]
    decide
  · have hoffset : stridedHeader.headerOffset 2 = 64 + 65535 + 0 := by decide
    rw [readPhdr, hoffset, phdrAt_stridedFile 0 (by decide)]
    decide

/-- The file is loaded without its segment. -/
theorem image_stridedFile_lost : WellFormedElf stridedFile stridedHeader ∧
    ∃ proc', loadElf stridedFile 0 (emptyProcess 0) = .ok proc' ∧ proc'.vmas = [] ∧
      ¬ ImageMatches stridedFile stridedHeader 0 proc' := by
  refine ⟨wellFormed_stridedFile, ?_⟩
  have hload : ∃ proc', loadElf stridedFile 0 (emptyProcess 0) = .ok proc' ∧ proc'.vmas = [] := by
    have hlength : stridedFile.length < 2 ^ 64 := by
      rw [length_stridedFile]
      decide
    refine loadElf_other parseHeader_stridedFile hlength (by decide) rfl fun i hi => ?_
    have hplace : stridedHeader.headerOffset i + 56 ≤ stridedFile.length := by
      have hi' : i < 3 := hi
      rw [length_stridedFile]
      interval_cases i <;> decide
    exact ⟨hplace, readPhdr_stridedFile hi⟩
  obtain ⟨proc', hok, hvmas⟩ := hload
  refine ⟨proc', hok, hvmas, fun himage => ?_⟩
  have htype : (stridedHeader.phdr stridedFile 2).type = 1 := by rw [phdr_stridedFile_two]
  have hsize : 0 < (stridedHeader.phdr stridedFile 2).memsz := by
    rw [phdr_stridedFile_two]
    decide
  obtain ⟨⟨vma, hmem, -⟩, -⟩ := himage 2 (by decide) htype 0 hsize
  rw [hvmas] at hmem
  cases hmem

end

/-! Loading on demand -/

section

variable {vma : Vma} {addr : Nat}

/-- The handler of page faults takes the same bytes of the binary for a page as the loader. -/
theorem binaryPage_eq (proc : ProcessMemory) (haddr : addr < 2 ^ 64) (hstart : vma.start ≤ addr)
    (haligned : vma.start % 4096 = 0) :
    binaryPage proc vma (pageStart addr) =
      pageData proc.binaryData vma.fileOffset vma.fileSize ((addr - vma.start) / 4096) := by
  have hoffset : (pageStart addr + 2 ^ 64 - vma.start) % 2 ^ 64 =
      4096 * ((addr - vma.start) / 4096) := by
    unfold pageStart
    omega
  rw [binaryPage, hoffset, pageData]
  refine if_congr ?_ rfl rfl
  rw [Bool.and_eq_true, Bool.and_eq_true, decide_eq_true_iff, decide_eq_true_iff, and_assoc,
    and_iff_right_iff_imp]
  rintro ⟨-, hlength⟩
  rw [Bool.not_eq_true', List.isEmpty_eq_false_iff, ← List.length_pos_iff]
  omega

/-- A page that a fault brings in has the bytes that the loader would have given it. -/
theorem lazy_eq_eager [Mapper] [Mapper.MapsPages] (proc : ProcessMemory) (haddr : addr < 2 ^ 64)
    (haligned : vma.start % 4096 = 0) (hvma : proc.vmas.find? (·.contains addr) = some vma) :
    binaryPage proc vma (pageStart addr) =
      pageData proc.binaryData vma.fileOffset vma.fileSize ((addr - vma.start) / 4096) ∧
    ∀ {kernelRoot root : Nat} {code : PageFaultErrorCode} {flags : PageTableFlags}
      {m m₁ m₂ : PhysMemory}, vma.stop ≤ userAddrMax → flags.present = true →
      PageSpace m (proc.pageTableFrame.getD kernelRoot) → PageSpace m₁ root →
      (handleFaultFor proc kernelRoot addr code m).1 = true →
      mapElfRegion proc.binaryData root vma.start flags vma.fileOffset vma.fileSize
        (List.range ((vma.stop - vma.start + 4095) / 4096)) m₁ = .ok m₂ →
      ∀ w, SamePage addr w → ∃ b, viewAt (handleFaultFor proc kernelRoot addr code m).2
          (proc.pageTableFrame.getD kernelRoot) w = some (regionFlagsToPageFlags vma.flags, b) ∧
        viewAt m₂ root w = some (flags, b) := by
  have hin := List.find?_some hvma
  rw [Vma.contains, Bool.and_eq_true, decide_eq_true_iff, decide_eq_true_iff] at hin
  have hdata := binaryPage_eq proc haddr hin.1 haligned
  refine ⟨hdata, fun {kernelRoot root code flags m m₁ m₂} hstop hpresent hm hm₁ hlazy heager
    w hw => ?_⟩
  have hlow : LowerHalf addr := lowerHalf_of_lt (hin.2.trans_le hstop)
  have hdemand : handleFaultFor proc kernelRoot addr code m =
      demandPageForRoot (proc.pageTableFrame.getD kernelRoot) addr
        (regionFlagsToPageFlags vma.flags) (binaryPage proc vma (pageStart addr)) m := by
    rw [handleFaultFor, hvma] at hlazy ⊢
    dsimp only at hlazy ⊢
    split_ifs at hlazy ⊢
    rfl
  rw [hdemand] at hlazy ⊢
  have hadded := demandPageForRoot_added hm hlow rfl (Prod.ext hlazy rfl)
  have hmapped := mapElfRegion_ok hm₁ hpresent (fun k hk => ?_) heager
  · refine ⟨_, (hadded.view w (hw.lowerHalf hlow)).trans (if_pos hw), ?_⟩
    rw [hdata]
    refine hmapped.hit w _ (List.mem_range.mpr ?_) (SamePage.trans ?_ hw)
    · omega
    · unfold SamePage
      omega
  · have := List.mem_range.mp hk
    omega

attribute [local instance] levelMapper

def lazyProcess : ProcessMemory where
  exited := false
  pageTableFrame := some 0
  vmas := [⟨0x1000, 0x2000, protToRegionFlags 3, 0, 5⟩]
  binaryData := [1, 2, 3, 4, 5]

theorem lazy_eq_eager_process : ∃ m₂ b,
    mapElfRegion lazyProcess.binaryData 0 0x1000 (regionFlagsToPageFlags (protToRegionFlags 3)) 0 5
      (List.range 1) (emptyMemory 8) = .ok m₂ ∧
    viewAt (handleFaultFor lazyProcess 0 0x1002 ⟨false, false⟩ (emptyMemory 8)).2 0 0x1002 =
      some (regionFlagsToPageFlags (protToRegionFlags 3), b) ∧
    viewAt m₂ 0 0x1002 = some (regionFlagsToPageFlags (protToRegionFlags 3), b) := by
  have hok : (mapElfRegion lazyProcess.binaryData 0 0x1000
      (regionFlagsToPageFlags (protToRegionFlags 3)) 0 5 (List.range 1) (emptyMemory 8)).isOk =
        true := by
    decide +kernel
  have hfault : (handleFaultFor lazyProcess 0 0x1002 ⟨false, false⟩ (emptyMemory 8)).1 = true := by
    decide +kernel
  cases hmap : mapElfRegion lazyProcess.binaryData 0 0x1000
      (regionFlagsToPageFlags (protToRegionFlags 3)) 0 5 (List.range 1) (emptyMemory 8) with
  | error e => rw [hmap] at hok; cases hok
  | ok m₂ =>
    obtain ⟨b, hb⟩ := (lazy_eq_eager lazyProcess (show 0x1002 < 2 ^ 64 by decide) (by decide)
      rfl).2 (by decide) rfl (pageSpace_emptyMemory 8) (pageSpace_emptyMemory 8) hfault hmap
      0x1002 rfl
    exact ⟨m₂, b, rfl, hb⟩

end
end ZiqaKernel
