/-
The loader of ELF files: `load_elf` (`abi/linux/elf_loader.rs`) with
`map_elf_region` (`memory/paging.rs`).  An arithmetic overflow and an address that
`VirtAddr::new` does not accept are faults.
-/
import ZiqaKernel.DescriptorCalls
import ZiqaKernel.MappedPages
import ZiqaKernel.ProcessRecord

namespace ZiqaKernel

/-! Headers -/

/-- `Elf64Header`. -/
structure Elf64Header where
  type : Nat
  entry : Nat
  phoff : Nat
  phentsize : Nat
  phnum : Nat
deriving DecidableEq

/-- `Elf64Phdr`. -/
structure Elf64Phdr where
  type : Nat
  flags : Nat
  offset : Nat
  vaddr : Nat
  filesz : Nat
  memsz : Nat
deriving DecidableEq

def fieldAt (b : List UInt8) (offset size : Nat) : Nat :=
  ((b.drop offset).take size).foldr (fun x n => x.toNat + 256 * n) 0

/-- `parse_header`.  After the check of the length every field is found. -/
def parseHeader (b : List UInt8) : Except Failure Elf64Header :=
  if b.length < 64 then .error (.error .parseError)
  else if b.take 4 ≠ [0x7f, 0x45, 0x4c, 0x46] then .error (.error .unknownFormat)
  else if b.getD 4 0 ≠ 2 then .error (.error (.other "Not 64-bit ELF"))
  else if b.getD 5 0 ≠ 1 then .error (.error (.other "Not little-endian ELF"))
  else if fieldAt b 16 2 ≠ 2 ∧ fieldAt b 16 2 ≠ 3 then
    .error (.error (.other "Not executable ELF"))
  else if fieldAt b 18 2 ≠ 62 then .error (.error (.other "Not x86_64 ELF"))
  else .ok {
    type := fieldAt b 16 2
    entry := fieldAt b 24 8
    phoff := fieldAt b 32 8
    phentsize := fieldAt b 54 2
    phnum := fieldAt b 56 2 }

def phdrAt (b : List UInt8) (offset : Nat) : Elf64Phdr where
  type := fieldAt b offset 4
  flags := fieldAt b (offset + 4) 4
  offset := fieldAt b (offset + 8) 8
  vaddr := fieldAt b (offset + 16) 8
  filesz := fieldAt b (offset + 32) 8
  memsz := fieldAt b (offset + 40) 8

/-- `parse_phdr`. -/
def parsePhdr (b : List UInt8) (offset : Nat) : Except Failure Elf64Phdr :=
  if 2 ^ 64 ≤ offset + 56 then .error .fault
  else if b.length < offset + 56 then .error (.error .parseError)
  else .ok (phdrAt b offset)

section

variable {front rest : List UInt8} {offset size : Nat}

theorem fieldAt_append_left (h : offset + size ≤ front.length) :
    fieldAt (front ++ rest) offset size = fieldAt front offset size := by
  rw [fieldAt, List.drop_append_of_le_length (by omega),
    List.take_append_of_le_length (by rw [List.length_drop]; omega), fieldAt]

theorem fieldAt_append_right (h : front.length ≤ offset) :
    fieldAt (front ++ rest) offset size = fieldAt rest (offset - front.length) size := by
  rw [fieldAt, List.drop_append, List.drop_eq_nil_of_le h, List.nil_append, fieldAt]

theorem fieldAt_replicate_zero (n : Nat) : fieldAt (List.replicate n 0) offset size = 0 := by
  rw [fieldAt, List.drop_replicate, List.take_replicate]
  induction min size (n - offset) with
  | zero => rfl
  | succ k ih => rw [List.replicate_succ, List.foldr_cons, ih]; rfl

theorem phdrAt_append_left (h : offset + 56 ≤ front.length) :
    phdrAt (front ++ rest) offset = phdrAt front offset := by
  unfold phdrAt
  congr 1
  all_goals exact fieldAt_append_left (by omega)

theorem phdrAt_append_right (h : front.length ≤ offset) :
    phdrAt (front ++ rest) offset = phdrAt rest (offset - front.length) := by
  unfold phdrAt
  congr 1
  · exact fieldAt_append_right h
  all_goals
    rw [fieldAt_append_right (by omega)]
    congr 1
    omega

theorem phdrAt_replicate_zero (n : Nat) :
    phdrAt (List.replicate n 0) offset = ⟨0, 0, 0, 0, 0, 0⟩ := by
  unfold phdrAt
  congr 1
  all_goals exact fieldAt_replicate_zero n

theorem parseHeader_append (h : front.length = 64) :
    parseHeader (front ++ rest) = parseHeader front := by
  have hlong : ¬ (front ++ rest).length < 64 := by
    rw [List.length_append]
    omega
  have hexact : ¬ front.length < 64 := by omega
  have hfield : ∀ offset size, offset + size ≤ 64 →
      fieldAt (front ++ rest) offset size = fieldAt front offset size :=
    fun offset size hle => fieldAt_append_left (hle.trans_eq h.symm)
  unfold parseHeader
  rw [if_neg hlong, if_neg hexact, List.take_append_of_le_length (by omega),
    List.getD_append _ _ _ _ (by omega), List.getD_append _ _ _ _ (by omega),
    hfield 16 2 (by decide), hfield 18 2 (by decide), hfield 24 8 (by decide),
    hfield 32 8 (by decide), hfield 54 2 (by decide), hfield 56 2 (by decide)]

end

def Elf64Header.loadBase (hdr : Elf64Header) : Nat := if hdr.type = 3 then 0x400000 else 0

/-- The offset at which the loader looks for a program header.  The product is one of
`u16`, and both operations saturate. -/
def Elf64Header.headerOffset (hdr : Elf64Header) (i : Nat) : Nat :=
  min (hdr.phoff + min (i * hdr.phentsize) 0xffff) (2 ^ 64 - 1)

/-! Segments -/

namespace Elf64Phdr

variable (ph : Elf64Phdr) (base : Nat)

def addr : Nat := ph.vaddr + base

/-- `aligned_vaddr`. -/
def start : Nat := pageStart (ph.addr base)

/-- `offset_diff`. -/
def diff : Nat := ph.addr base - ph.start base

/-- `aligned_size`. -/
def size : Nat := pageStart (ph.memsz + ph.diff base + 0xfff)

def fileOffset : Nat := ph.offset - ph.diff base

/-- The number of bytes that are taken from the file, from the first page on. -/
def fileSize : Nat := ph.filesz + ph.diff base

def regionFlags : MemoryRegionFlags where
  writable := ph.flags.testBit 1
  executable := ph.flags.testBit 0
  userAccessible := true
  copyOnWrite := false

/-- The region of the segment, which ends at `stop`. -/
def region (stop : Nat) : VmaRecord where
  start := ph.start base
  stop := stop
  flags := ph.regionFlags
  fileOffset := ph.fileOffset base
  fileSize := ph.fileSize base
  readable := ph.flags.testBit 2
  isFileBacked := false
  filePath := none
  bcoHook := none

end Elf64Phdr

/-- `add_region`. -/
def addRecord (vmas : List VmaRecord) (vma : VmaRecord) : List VmaRecord :=
  vmas.takeWhile (·.start < vma.start) ++ vma :: vmas.dropWhile (·.start < vma.start)

theorem mem_addRecord {vmas : List VmaRecord} {vma x : VmaRecord} :
    x ∈ addRecord vmas vma ↔ x = vma ∨ x ∈ vmas := by
  have hsplit : x ∈ vmas ↔ x ∈ vmas.takeWhile (·.start < vma.start) ∨
      x ∈ vmas.dropWhile (·.start < vma.start) := by
    rw [← List.mem_append, List.takeWhile_append_dropWhile]
  rw [addRecord, List.mem_append, List.mem_cons, hsplit]
  exact or_left_comm

/-- The bytes of the file that belong into page `k` of a segment. -/
def pageData (binary : List UInt8) (fileOffset fileSize k : Nat) : Option (List UInt8) :=
  if 4096 * k < fileSize ∧ fileOffset + 4096 * k < binary.length then
    some ((binary.drop (fileOffset + 4096 * k)).take (min (fileSize - 4096 * k) 4096))
  else none

/-- What becomes of a failure of `map_elf_region`. -/
def mappingFailed : Failure := .error (.other "ELF segment mapping failed")

/-- `map_elf_region` over the indices of its pages. -/
def mapElfRegion [Mapper] (binary : List UInt8) (root start : Nat) (flags : PageTableFlags)
    (fileOffset fileSize : Nat) : List Nat → PhysMemory → Except Failure PhysMemory
  | [], m => .ok m
  | k :: rest, m =>
    match virtAddrNew (start + 4096 * k) with
    | none => .error .fault
    | some v =>
      if m.free = [] then .error mappingFailed
      else if 4096 * k < fileSize ∧ 2 ^ 64 ≤ fileOffset + 4096 * k then .error .fault
      else
        match demandPageForRoot root v flags (pageData binary fileOffset fileSize k) m with
        | (true, m') => mapElfRegion binary root start flags fileOffset fileSize rest m'
        | (false, _) => .error mappingFailed

/-! The loader -/

structure ElfProcess where
  entryPoint : Nat
  rip : Nat
  elfPhent : Nat
  elfPhnum : Nat
  elfPhdr : Nat
  vmas : List VmaRecord
  interpreter : Option (List UInt8)
  brk : Nat
  memory : PhysMemory

/-- The state of the loop over the headers: the process and `max_vaddr`. -/
structure ElfLoop where
  proc : ElfProcess
  maxVaddr : Nat

section

variable [Mapper] (binary : List UInt8) (hdr : Elf64Header) (root : Nat)

/-- The address of the program headers, if they lie in the segment. -/
def notePhdr (ph : Elf64Phdr) (s : ElfLoop) : Except Failure ElfLoop :=
  if ph.offset ≤ hdr.phoff ∧ hdr.phoff < min (ph.offset + ph.filesz) (2 ^ 64 - 1) then
    if 2 ^ 64 ≤ ph.addr hdr.loadBase + hdr.phoff then .error .fault
    else .ok { s with proc := { s.proc with
      elfPhdr := ph.addr hdr.loadBase + hdr.phoff - ph.offset } }
  else .ok s

/-- The part of `load_elf` for `PT_LOAD`. -/
def loadSegment (ph : Elf64Phdr) (s : ElfLoop) : Except Failure ElfLoop :=
  let base := hdr.loadBase
  if 2 ^ 64 ≤ ph.addr base then .error .fault
  else if 2 ^ 64 ≤ ph.addr base + ph.memsz then
    .error (.error (.other "ELF segment memsz overflow"))
  else if ph.addr base + ph.memsz > 0x7fffffffffff then
    .error (.error (.other "ELF segment overlaps kernel space"))
  else if 2 ^ 64 ≤ ph.fileSize base then .error .fault
  else
    match virtAddrAdd (ph.start base) (ph.size base) with
    | none => .error .fault
    | some stop =>
      match mapElfRegion binary root (ph.start base) (regionFlagsToPageFlags ph.regionFlags)
          (ph.fileOffset base) (ph.fileSize base)
          (List.range ((ph.size base + 4095) / 4096)) s.proc.memory with
      | .error f => .error f
      | .ok m =>
        notePhdr hdr ph { s with
          proc := { s.proc with
            vmas := addRecord s.proc.vmas (ph.region base stop)
            memory := m }
          maxVaddr := max s.maxVaddr (ph.addr base + ph.memsz) }

/-- The part of `load_elf` for `PT_INTERP`. -/
def loadInterp (ph : Elf64Phdr) (s : ElfLoop) : Except Failure ElfLoop :=
  if 2 ^ 64 ≤ ph.offset + ph.filesz then .error .fault
  else if ph.offset + ph.filesz ≤ binary.length then
    let path := ((binary.drop ph.offset).take ph.filesz).takeWhile (· ≠ 0)
    if isUtf8 path then .ok { s with proc := { s.proc with interpreter := some path } }
    else .ok s
  else .ok s

/-- One round of the loop of `load_elf`. -/
def loadHeader (s : ElfLoop) (i : Nat) : Except Failure ElfLoop :=
  match parsePhdr binary (hdr.headerOffset i) with
  | .error f => .error f
  | .ok ph =>
    if ph.type = 1 then loadSegment binary hdr root ph s
    else if ph.type = 3 then loadInterp binary ph s
    else .ok s

/-- The loop of `load_elf`. -/
def loadHeaders : List Nat → ElfLoop → Except Failure ElfLoop
  | [], s => .ok s
  | i :: rest, s =>
    match loadHeader binary hdr root s i with
    | .error f => .error f
    | .ok s' => loadHeaders rest s'

/-- `load_elf` for a process with tables at `root`. -/
def loadElf (proc : ElfProcess) : Except Failure ElfProcess :=
  match parseHeader binary with
  | .error f => .error f
  | .ok hdr =>
    if 2 ^ 64 ≤ hdr.entry + hdr.loadBase then .error .fault
    else
      match virtAddrNew (hdr.entry + hdr.loadBase) with
      | none => .error .fault
      | some entryPoint =>
        let proc := { proc with
          entryPoint := entryPoint
          rip := hdr.entry + hdr.loadBase
          elfPhent := hdr.phentsize
          elfPhnum := hdr.phnum }
        match loadHeaders binary hdr root (List.range hdr.phnum) ⟨proc, 0⟩ with
        | .error f => .error f
        | .ok s => .ok { s.proc with brk := pageStart (s.maxVaddr + 0xfff) }

end

/-! The pages of a segment -/

/-- From `m` to `m'` the pages `ks` of a segment have been added. -/
structure RegionMapped (m m' : PhysMemory) (root start : Nat) (flags : PageTableFlags)
    (data : Nat → Option (List UInt8)) (ks : List Nat) : Prop where
  space : PageSpace m' root
  low : ∀ k ∈ ks, LowerHalf (start + 4096 * k)
  vacant : ∀ k ∈ ks, viewAt m root (start + 4096 * k) = none
  hit : ∀ w, ∀ k ∈ ks, SamePage (start + 4096 * k) w →
    viewAt m' root w = some (flags, ((data k).getD []).getD (w % 4096) 0)
  miss : ∀ w, LowerHalf w → (∀ k ∈ ks, ¬ SamePage (start + 4096 * k) w) →
    viewAt m' root w = viewAt m root w
  user : ∀ w, ∀ k ∈ ks, SamePage (start + 4096 * k) w → flags.userAccessible = true →
    UserWay m'.tables w root 3
  userKept : ∀ w, LowerHalf w → (viewAt m root w).isSome → UserWay m.tables w root 3 →
    UserWay m'.tables w root 3
  room : m.free.length ≤ m'.free.length + 4 * ks.length

section

variable {m m' m₁ : PhysMemory} {root start k : Nat} {flags : PageTableFlags}
  {data : Nat → Option (List UInt8)} {ks : List Nat}

theorem RegionMapped.nil (h : PageSpace m root) : RegionMapped m m root start flags data [] where
  space := h
  low := by simp
  vacant := by simp
  hit := by simp
  miss _ _ _ := rfl
  user := by simp
  userKept _ _ _ h := h
  room := by simp

theorem RegionMapped.cons (hlow : LowerHalf (start + 4096 * k))
    (hpage : PageAdded m m₁ root (start + 4096 * k) flags (((data k).getD []).getD · 0))
    (h : RegionMapped m₁ m' root start flags data ks) :
    RegionMapped m m' root start flags data (k :: ks) := by
  -- no later page is the page of this one
  have happart : ∀ k' ∈ ks, ¬ SamePage (start + 4096 * k) (start + 4096 * k') := by
    intro k' hk' hsame
    have hvacant := h.vacant k' hk'
    rw [hpage.view _ (h.low k' hk'), if_pos hsame] at hvacant
    cases hvacant
  refine ⟨h.space, List.forall_mem_cons.mpr ⟨hlow, h.low⟩, ?_, ?_, fun w hw hmiss => ?_, ?_,
    fun w hw hsome hway => ?_, ?_⟩
  · rw [List.forall_mem_cons]
    refine ⟨hpage.vacant, fun k' hk' => ?_⟩
    rw [← h.vacant k' hk', hpage.view _ (h.low k' hk'), if_neg (happart k' hk')]
  · intro w
    rw [List.forall_mem_cons]
    refine ⟨fun hsame => ?_, h.hit w⟩
    have hw := hsame.lowerHalf hlow
    rw [h.miss w hw fun k' hk' hsame' => happart k' hk' (hsame.trans hsame'.symm),
      hpage.view w hw, if_pos hsame]
  · rw [List.forall_mem_cons] at hmiss
    rw [h.miss w hw hmiss.2, hpage.view w hw, if_neg hmiss.1]
  · intro w
    rw [List.forall_mem_cons]
    refine ⟨fun hsame huser => ?_, h.user w⟩
    have hw := hsame.lowerHalf hlow
    apply h.userKept w hw
    · rw [hpage.view w hw, if_pos hsame]
      rfl
    · exact hpage.user w hsame huser
  · apply h.userKept w hw
    · rw [hpage.view w hw]
      split
      · rfl
      · exact hsome
    · exact hpage.userKept w hw hsome hway
  · have hroom := hpage.room
    have hroom' := h.room
    rw [List.length_cons]
    omega

variable {binary : List UInt8} {fileOffset fileSize : Nat}

theorem mapElfRegion_ok [Mapper] [Mapper.MapsPages] (h : PageSpace m root) (hpresent : flags.present = true)
    (hlow : ∀ k ∈ ks, start + 4096 * k < userAddrMax)
    (hcall : mapElfRegion binary root start flags fileOffset fileSize ks m = .ok m') :
    RegionMapped m m' root start flags (pageData binary fileOffset fileSize) ks := by
  induction ks generalizing m with
  | nil =>
    obtain rfl := Except.ok.inj hcall
    exact .nil h
  | cons k rest ih =>
    rw [List.forall_mem_cons] at hlow
    rw [mapElfRegion, virtAddrNew_of_lt hlow.1] at hcall
    dsimp only at hcall
    split_ifs at hcall
    split at hcall
    · next m₁ hdemand =>
      have hv := lowerHalf_of_lt hlow.1
      have hpage := demandPageForRoot_added h hv hpresent hdemand
      exact .cons hv hpage (ih hpage.space hlow.2 hcall)
    · cases hcall

end

end ZiqaKernel
