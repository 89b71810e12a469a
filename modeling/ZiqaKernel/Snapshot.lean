/-
Snapshots of processes (`process/snapshot.rs`): `snapshot` writes a process into bytes,
and `restore_inner` reads them back.  A process that has no table of its own is refused,
since `create_process_page_table` makes none.
-/
import ZiqaKernel.ByteReader
import ZiqaKernel.ElfLoader

namespace ZiqaKernel

/-! Fields -/

/-- `encode_flags`. -/
def encodeFlags (readable : Bool) (flags : MemoryRegionFlags) : UInt8 :=
  (if readable then 1 else 0) ||| (if flags.writable then 2 else 0) |||
    (if flags.executable then 4 else 0) ||| (if flags.userAccessible then 8 else 0) |||
    (if flags.copyOnWrite then 16 else 0)

/-- `decode_flags`: is the region readable, and its other flags. -/
def decodeFlags (v : UInt8) : Bool × MemoryRegionFlags :=
  (v &&& 1 != 0, {
    writable := v &&& 2 != 0
    executable := v &&& 4 != 0
    userAccessible := v &&& 8 != 0
    copyOnWrite := v &&& 16 != 0 })

/-- `encode_fd_target`. -/
def encodeFdTarget : FdTarget → UInt8 × UInt32
  | .stdin => (0, 0)
  | .stdout => (1, 0)
  | .stderr => (2, 0)
  | .pipeRead channel => (3, channel)
  | .pipeWrite channel => (4, channel)
  | .file idx => (5, idx.toUInt32)
  | .scheme idx handle => (6, (idx.toUInt32 <<< 16) ||| handle.toUInt32)

/-- `decode_fd_target`. -/
def decodeFdTarget (tag : UInt8) (data : UInt32) : Option FdTarget :=
  match tag.toNat with
  | 0 => some .stdin
  | 1 => some .stdout
  | 2 => some .stderr
  | 3 => some (.pipeRead data)
  | 4 => some (.pipeWrite data)
  | 5 => some (.file data.toUInt8)
  | 6 => some (.scheme (data >>> 16).toUInt8 (data &&& 0xffff).toUInt64)
  | _ => none

def CpuState.registers (c : CpuState) : List UInt64 :=
  [c.r15, c.r14, c.r13, c.r12, c.r11, c.r10, c.r9, c.r8, c.rdi, c.rsi, c.rbp, c.rbx, c.rdx,
    c.rcx, c.rax, c.rip, c.cs, c.rflags, c.rsp, c.ss]

def CpuState.ofRegisters (regs : List UInt64) : CpuState where
  r15 := regs.getD 0 0
  r14 := regs.getD 1 0
  r13 := regs.getD 2 0
  r12 := regs.getD 3 0
  r11 := regs.getD 4 0
  r10 := regs.getD 5 0
  r9 := regs.getD 6 0
  r8 := regs.getD 7 0
  rdi := regs.getD 8 0
  rsi := regs.getD 9 0
  rbp := regs.getD 10 0
  rbx := regs.getD 11 0
  rdx := regs.getD 12 0
  rcx := regs.getD 13 0
  rax := regs.getD 14 0
  rip := regs.getD 15 0
  cs := regs.getD 16 0
  rflags := regs.getD 17 0
  rsp := regs.getD 18 0
  ss := regs.getD 19 0

def encodeAbi : AbiKind → Nat
  | .linuxElf => 0
  | .wasm => 1
  | .ziqaNative => 2
  | .redoxElf => 3

def decodeAbi : Nat → Option AbiKind
  | 0 => some .linuxElf
  | 1 => some .wasm
  | 2 => some .ziqaNative
  | _ => none

/-! Taking a snapshot -/

/-- `b"ZSNP"`. -/
def snapMagic : List UInt8 := [0x5a, 0x53, 0x4e, 0x50]

def pageCount (start stop : Nat) : Nat := ((stop + 2 ^ 64 - start) % 2 ^ 64 + 4095) % 2 ^ 64 / 4096

def pageRecord (m : PhysMemory) (root addr : Nat) : List UInt8 :=
  match leafEntry m.tables addr 4 root with
  | some (f, i) => 1 :: (m.pages (m.tables f i).addr).toList
  | none => [0]

def pageRecords (m : PhysMemory) (root start stop : Nat) : List UInt8 :=
  (List.range (pageCount start stop)).flatMap fun k =>
    pageRecord m root ((start + 4096 * k) % 2 ^ 64)

/-- `VirtAddr::new` accepts the address of each page that the loop over the region visits. -/
def VmaRecord.visitable (vma : VmaRecord) : Bool :=
  (List.range (pageCount vma.start vma.stop)).all fun k =>
    (virtAddrNew ((vma.start + 4096 * k) % 2 ^ 64)).isSome

def vmaRecord (m : PhysMemory) (root : Nat) (vma : VmaRecord) : List UInt8 :=
  leBytes 8 vma.start ++ leBytes 8 vma.stop ++ [encodeFlags vma.readable vma.flags] ++
    leBytes 4 (pageRecords m root vma.start vma.stop).length ++
    pageRecords m root vma.start vma.stop

def fdRecord (fds : FdTable) (fd : Nat) (desc : FileDesc) : List UInt8 :=
  leBytes 4 fd ++ [(encodeFdTarget desc.target).1] ++
    leBytes 4 (encodeFdTarget desc.target).2.toNat ++ leBytes 4 desc.flags.toNat ++
    leBytes 8 desc.offset.toNat ++ [UInt8.ofNat (fds.pathBytes fd).length] ++ fds.pathBytes fd

def FdTable.opened (fds : FdTable) : List (Nat × FileDesc) :=
  (List.range 8).filterMap fun fd => (fds.get fd).map (fd, ·)

def ProcessRecord.fieldRecord (p : ProcessRecord) : List UInt8 :=
  p.cpuState.registers.flatMap (fun r => leBytes 8 r.toNat) ++
    leBytes 8 p.pid ++ leBytes 8 (encodeAbi p.abi) ++ leBytes 8 p.priority.toNat ++
    leBytes 8 p.brk.toNat ++ leBytes 8 p.mmapBump.toNat ++ leBytes 8 p.entryPoint.toNat ++
    leBytes 8 p.stackTop.toNat ++ leBytes 4 p.cwdLen ++ p.workingDirectory

/-- The bytes of the snapshot, when the tables are at `root`. -/
def ProcessRecord.snapshotBytes (p : ProcessRecord) (m : PhysMemory) (root : Nat) : List UInt8 :=
  snapMagic ++ leBytes 4 1 ++ p.fieldRecord ++
    (leBytes 4 p.vmas.length ++ p.vmas.flatMap (vmaRecord m root)) ++
    (leBytes 4 p.fds.opened.length ++ p.fds.opened.flatMap fun r => fdRecord p.fds r.1 r.2)

/-- `snapshot`, which panics at an address that is not canonical.  The tables of a process
without its own are those in `Cr3`. -/
def ProcessRecord.snapshot (p : ProcessRecord) (m : PhysMemory) (cr3 : Nat) : Option (List UInt8) :=
  if p.vmas.all VmaRecord.visitable then some (p.snapshotBytes m (p.pageTableFrame.getD cr3))
  else none

/-! Restoring -/

/-- Why a snapshot is not restored: the function returns `None`, or `VirtAddr::new`
panics. -/
inductive RestoreFailure where
  | refused
  | fault
deriving DecidableEq

/-- The value that the operator `?` goes on with. -/
def orRefuse {α : Type} : Option α → Except RestoreFailure α
  | none => .error .refused
  | some x => .ok x

def addressOf (n : Nat) : Except RestoreFailure Nat :=
  match virtAddrNew n with
  | none => .error .fault
  | some v => .ok v

def readRegisters : Nat → List UInt8 → Except RestoreFailure (List UInt64 × List UInt8)
  | 0, data => .ok ([], data)
  | n + 1, data => do
      let (r, data) ← orRefuse (readLe 8 data)
      let (rest, data) ← readRegisters n data
      return (UInt64.ofNat r :: rest, data)

/-- The part of `restore_inner` before the regions. -/
def restoreFields (t : ProcessRecord) (data : List UInt8) :
    Except RestoreFailure (ProcessRecord × List UInt8) := do
  let (magic, data) ← orRefuse (splitBytes 4 data)
  if magic ≠ snapMagic then .error .refused
  else
    let (version, data) ← orRefuse (readLe 4 data)
    if version ≠ 1 then .error .refused
    else
      let (regs, data) ← readRegisters 20 data
      let (_, data) ← orRefuse (readLe 8 data)
      let (abiVal, data) ← orRefuse (readLe 8 data)
      let abi ← orRefuse (decodeAbi abiVal)
      let (priority, data) ← orRefuse (readLe 8 data)
      let (brk, data) ← orRefuse (readLe 8 data)
      let (mmapBump, data) ← orRefuse (readLe 8 data)
      let (entry, data) ← orRefuse (readLe 8 data)
      let entryPoint ← addressOf entry
      let (stack, data) ← orRefuse (readLe 8 data)
      let stackTop ← addressOf stack
      let (cwdLen, data) ← orRefuse (readLe 4 data)
      if cwdLen > 128 then .error .refused
      else
        let (cwd, data) ← orRefuse (splitBytes cwdLen data)
        return ({ t with
          cpuState := .ofRegisters regs
          abi := abi
          priority := UInt8.ofNat priority
          brk := UInt64.ofNat brk
          mmapBump := UInt64.ofNat mmapBump
          entryPoint := UInt64.ofNat entryPoint
          stackTop := UInt64.ofNat stackTop
          cwd := t.cwd.splice 0 cwdLen (cwd.getD · 0)
          cwdLen := cwdLen }, data)

/-- The loop over the pages of a region.  Whether a page could be mapped is not looked
at. -/
def restorePages [Mapper] (root start : Nat) (flags : PageTableFlags) :
    List Nat → List UInt8 → PhysMemory → Except RestoreFailure PhysMemory
  | [], _, m => .ok m
  | _ :: _, [], m => .ok m
  | k :: ks, present :: data, m =>
    if present = 1 then do
      let (contents, data) ← orRefuse (splitBytes 4096 data)
      let v ← addressOf ((start + 4096 * k) % 2 ^ 64)
      if m.free = [] then .error .refused
      else
        restorePages root start flags ks data (demandPageForRoot root v flags (some contents) m).2
    else restorePages root start flags ks data m

/-- `Vma::new`. -/
def VmaRecord.new (start stop : Nat) (readable : Bool) (flags : MemoryRegionFlags) : VmaRecord where
  start := start
  stop := stop
  flags := flags
  fileOffset := 0
  fileSize := 0
  readable := readable
  isFileBacked := false
  filePath := none
  bcoHook := none

def restoreVmas [Mapper] (root : Nat) : Nat → List VmaRecord → PhysMemory → List UInt8 →
    Except RestoreFailure (List VmaRecord × PhysMemory × List UInt8)
  | 0, vmas, m, data => .ok (vmas, m, data)
  | n + 1, vmas, m, data => do
      let (start, data) ← orRefuse (readLe 8 data)
      let (stop, data) ← orRefuse (readLe 8 data)
      let (flagsByte, data) ← orRefuse (readLe 1 data)
      let (readable, flags) := decodeFlags (UInt8.ofNat flagsByte)
      let (len, data) ← orRefuse (readLe 4 data)
      let (pages, data) ← orRefuse (splitBytes len data)
      let first ← addressOf start
      let last ← addressOf ((first + (stop + 2 ^ 64 - start) % 2 ^ 64) % 2 ^ 64)
      let m ← restorePages root start (regionFlagsToPageFlags flags)
        (List.range (pageCount start stop)) pages m
      restoreVmas root n (addRecord vmas (.new first last readable flags)) m data

/-- `create_process_page_table`. -/
def createProcessPageTable : Option Nat := none

/-- The part of `restore_inner` for the regions. -/
def restoreRegions [Mapper] (t : ProcessRecord) (m : PhysMemory) (data : List UInt8) :
    Except RestoreFailure (ProcessRecord × PhysMemory × List UInt8) := do
  let (count, data) ← orRefuse (readLe 4 data)
  let root ← orRefuse (t.pageTableFrame.or createProcessPageTable)
  let (vmas, m, data) ← restoreVmas root count [] m data
  return ({ t with vmas := vmas, pageTableFrame := some root }, m, data)

/-- A path is copied into its buffer without a zero byte behind it. -/
def FdTable.restorePath (fds : FdTable) (fd : Nat) (path : List UInt8) : FdTable :=
  let n := min path.length 63
  { fds with
    paths := fds.paths.setIfInBounds fd ((fds.paths[fd]?.getD .zero).splice 0 n (path.getD · 0))
    pathLens := fds.pathLens.setIfInBounds fd ⟨n, pathLen_lt path⟩ }

/-- What is done with one descriptor of the snapshot.  From 3 on `get_mut` finds an empty
slot. -/
def FdTable.restoreFd (fds : FdTable) (fd : Nat) (desc : FileDesc) (path : List UInt8) : FdTable :=
  if fd < 8 then
    if fd < 3 then fds.modify fd fun d => { d with flags := desc.flags, offset := desc.offset }
    else (fds.restorePath fd path).modify fd fun _ => desc
  else fds

def restoreFds : Nat → FdTable → List UInt8 → Except RestoreFailure FdTable
  | 0, fds, _ => .ok fds
  | n + 1, fds, data => do
      let (fd, data) ← orRefuse (readLe 4 data)
      let (tag, data) ← orRefuse (readLe 1 data)
      let (targetData, data) ← orRefuse (readLe 4 data)
      let (flags, data) ← orRefuse (readLe 4 data)
      let (offset, data) ← orRefuse (readLe 8 data)
      let (pathLen, data) ← orRefuse (readLe 1 data)
      let (path, data) ← orRefuse (splitBytes pathLen data)
      match decodeFdTarget (UInt8.ofNat tag) (UInt32.ofNat targetData) with
      | none => restoreFds n fds data
      | some target =>
        restoreFds n (fds.restoreFd fd ⟨target, UInt32.ofNat flags, UInt64.ofNat offset⟩ path) data

/-- `restore_inner`. -/
def restoreInner [Mapper] (t : ProcessRecord) (m : PhysMemory) (data : List UInt8) :
    Except RestoreFailure (ProcessRecord × PhysMemory) := do
  let (t, data) ← restoreFields t data
  let (t, m, data) ← restoreRegions t m data
  let (count, data) ← orRefuse (readLe 4 data)
  let fds ← restoreFds count .new data
  return ({ t with fds := fds }, m)

/-! The round trip -/

def mappedByte (m : PhysMemory) (root w : Nat) : Option UInt8 :=
  (walk m.tables w 4 root).map fun l => (m.pages (l.phys / 4096)).get (l.phys % 4096)

def VmaRecord.extent (vma : VmaRecord) : Nat × Nat × Bool × MemoryRegionFlags :=
  (vma.start, vma.stop, vma.readable, vma.flags)

/-- The process `q` with tables at `root'` is what `p` with tables at `root` was. -/
structure Reproduces (p q : ProcessRecord) (m m' : PhysMemory) (root root' : Nat) : Prop where
  cpuState : q.cpuState = p.cpuState
  abi : q.abi = p.abi
  priority : q.priority = p.priority
  brk : q.brk = p.brk
  mmapBump : q.mmapBump = p.mmapBump
  entryPoint : q.entryPoint = p.entryPoint
  stackTop : q.stackTop = p.stackTop
  workingDirectory : q.workingDirectory = p.workingDirectory
  vmas : (q.vmas.map VmaRecord.extent).Perm (p.vmas.map VmaRecord.extent)
  pages : ∀ vma ∈ p.vmas, ∀ w, vma.contains w = true → ∀ b, mappedByte m root w = some b →
    mappedByte m' root' w = some b
  fds : ∀ fd desc, p.fds.get fd = some desc →
    q.fds.get fd = some desc ∧ q.fds.pathBytes fd = p.fds.pathBytes fd

/-- The snapshot of `p`, taken in the memory `m`, is restored into `t` in the memory `mt`. -/
def RoundTrips [Mapper] (p t : ProcessRecord) (m mt : PhysMemory) (cr3 : Nat) : Prop :=
  ∃ data, p.snapshot m cr3 = some data ∧ ∃ q mq, restoreInner t mt data = .ok (q, mq) ∧
    Reproduces p q m mq (p.pageTableFrame.getD cr3) (q.pageTableFrame.getD cr3)

theorem exceptBind_eq_ok {ε α β : Type} {x : Except ε α} {f : α → Except ε β} {r : β} :
    (x >>= f) = .ok r ↔ ∃ a, x = .ok a ∧ f a = .ok r := by
  cases x with
  | error e => simp [bind, Except.bind]
  | ok a => simp [bind, Except.bind]

theorem restoreFields_pageTableFrame {t t' : ProcessRecord} {data rest : List UInt8}
    (h : restoreFields t data = .ok (t', rest)) : t'.pageTableFrame = t.pageTableFrame := by
  unfold restoreFields at h
  obtain ⟨⟨magic, _⟩, -, h⟩ := exceptBind_eq_ok.mp h
  dsimp only at h
  split at h
  · cases h
  · obtain ⟨⟨version, _⟩, -, h⟩ := exceptBind_eq_ok.mp h
    dsimp only at h
    split at h
    · cases h
    · -- the registers, the identity of the process and its addresses
      simp only [exceptBind_eq_ok] at h
      obtain ⟨_, -, _, -, _, -, _, -, _, -, _, -, _, -, _, -, _, -, _, -, _, -, _, -, h⟩ := h
      split at h
      · cases h
      · obtain ⟨_, -, h⟩ := exceptBind_eq_ok.mp h
        obtain ⟨rfl, -⟩ := Prod.mk.inj (Except.ok.inj h)
        rfl

theorem restoreRegions_pageTableFrame [Mapper] {t t' : ProcessRecord} {m m' : PhysMemory}
    {data rest : List UInt8} (h : restoreRegions t m data = .ok (t', m', rest)) :
    t.pageTableFrame ≠ none := by
  intro hnone
  unfold restoreRegions at h
  obtain ⟨_, -, h⟩ := exceptBind_eq_ok.mp h
  obtain ⟨root, hroot, -⟩ := exceptBind_eq_ok.mp h
  rw [hnone] at hroot
  cases hroot

theorem restoreInner_pageTableFrame [Mapper] {t q : ProcessRecord} {m mq : PhysMemory}
    {data : List UInt8} (h : restoreInner t m data = .ok (q, mq)) : t.pageTableFrame ≠ none := by
  unfold restoreInner at h
  obtain ⟨⟨t₁, rest⟩, hfields, h⟩ := exceptBind_eq_ok.mp h
  obtain ⟨⟨t₂, m₂, rest₂⟩, hregions, -⟩ := exceptBind_eq_ok.mp h
  rw [← restoreFields_pageTableFrame hfields]
  exact restoreRegions_pageTableFrame hregions

/-- No snapshot of any process is restored into a process that has no table of its own,
as `Process::new` makes it. -/
theorem not_roundTrips_of_fresh [Mapper] (p t : ProcessRecord) (m mt : PhysMemory) (cr3 : Nat)
    (hfresh : t.pageTableFrame = none) : ¬ RoundTrips p t m mt cr3 := by
  rintro ⟨data, -, q, mq, hrestore, -⟩
  exact restoreInner_pageTableFrame hrestore hfresh

/-- A process as `Process::new` makes it. -/
def blankProcess : ProcessRecord := .new ⟨0x33, 0x2b⟩ 0 1 .linuxElf 0x400000 0

def blankMemory : PhysMemory where
  tables _ _ := .unused
  free := [1, 2, 3, 4]
  pages _ := .zero

attribute [local instance] levelMapper

theorem not_roundTrips_blankProcess : blankProcess.pageTableFrame = none ∧
    ¬ RoundTrips blankProcess blankProcess blankMemory blankMemory 0 :=
  ⟨rfl, not_roundTrips_of_fresh blankProcess blankProcess blankMemory blankMemory 0 rfl⟩

theorem restore_blankProcess_refused : ((blankProcess.snapshot blankMemory 0).map fun data =>
      match restoreInner blankProcess blankMemory data with
      | .ok _ => none
      | .error f => some f) = some (some .refused) := by
  decide +kernel

end ZiqaKernel
