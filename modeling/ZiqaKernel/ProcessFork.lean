/-
`Scheduler::fork` (`process/scheduler.rs`): the child is a fresh process record
into which some fields of the parent are copied.
-/
import ZiqaKernel.CowFork
import ZiqaKernel.ProcessRecord

namespace ZiqaKernel

open Function ProcessRecord VmaRecord

/-- The processes with the memory that they share.  Numbers from `nextPid` on have not
been given to a process. -/
structure ProcessSystem where
  processes : Nat → Option ProcessRecord
  nextPid : Nat
  ready : List Nat
  current : Option Nat
  fpuRegisters : Image 512
  cr3 : Nat
  memory : PhysMemory
  selectors : UserSelectors
  unused : ∀ pid, nextPid ≤ pid → processes pid = none

def VmaRecord.markCopyOnWrite (vma : VmaRecord) : VmaRecord :=
  if vma.flags.writable then
    { vma with flags := { vma.flags with copyOnWrite := true } }
  else vma

def ProcessRecord.forked (parent : ProcessRecord) (selectors : UserSelectors)
    (stackBase childPid parentPid : Nat) (tables : Option Nat) : ProcessRecord :=
  { new selectors stackBase childPid parent.abi parent.entryPoint parent.stackTop with
    cpuState := parent.cpuState
    priority := parent.priority
    parent := parentPid
    vmas := parent.vmas.map markCopyOnWrite
    binaryData := parent.binaryData
    state := .ready
    fds := .cloneFrom parent.fds
    pageTableFrame := tables }

namespace ProcessSystem

/-- `Scheduler::fork`.  The tables are cloned before the parent is looked up. -/
def fork (s : ProcessSystem) (stackBase parentPid : Nat) : Option Nat × ProcessSystem :=
  match cowForkParent s.cr3 s.memory with
  | (tables, memory) =>
    match s.processes parentPid with
    | none => (none, { s with memory := memory })
    | some parent => (some s.nextPid, {
        processes := update (update s.processes parentPid
            ((s.processes parentPid).map fun p =>
              { p with vmas := p.vmas.map markCopyOnWrite }))
          s.nextPid
          (some (parent.forked s.selectors stackBase s.nextPid parentPid tables))
        nextPid := s.nextPid + 1
        ready := s.ready ++ [s.nextPid]
        current := s.current
        fpuRegisters := s.fpuRegisters
        cr3 := s.cr3
        memory := memory
        selectors := s.selectors
        unused := by
          intro pid hpid
          rw [update_of_ne (by omega)]
          by_cases hparent : pid = parentPid
          · rw [hparent, update_self, s.unused parentPid (by omega)]
            rfl
          · rw [update_of_ne hparent]
            exact s.unused pid (by omega) })

/-- The floating-point state of a process: in the registers while it runs. -/
def fpuOf (s : ProcessSystem) (pid : Nat) (p : ProcessRecord) : Image 512 :=
  if s.current = some pid then s.fpuRegisters else p.fpuState

end ProcessSystem

/-- The child has what the parent had, up to the marks on writable regions. -/
structure CopyOf (parent child : ProcessRecord) (fpu : Image 512) : Prop where
  vmas : child.vmas = parent.vmas.map markCopyOnWrite
  fds : child.fds = parent.fds
  brk : child.brk = parent.brk
  mmapBump : child.mmapBump = parent.mmapBump
  cwd : child.workingDirectory = parent.workingDirectory
  mask : child.signals.blocked = parent.signals.blocked
  handlers : child.signals.actions = parent.signals.actions
  capabilities : child.capabilities = parent.capabilities
  fpu : child.fpuState = fpu
  fsBase : child.fsBase = parent.fsBase
  gsBase : child.gsBase = parent.gsBase

/-- The process has not changed anything that `Process::new` sets and `fork` does not
copy. -/
structure UntouchedSinceNew (p : ProcessRecord) (fpu : Image 512) : Prop where
  brk : p.brk = 0x20000000
  mmapBump : p.mmapBump = 0x70000000
  cwd : p.workingDirectory = [47]
  mask : p.signals.blocked = 0
  handlers : p.signals.actions = Vector.replicate 32 .default
  capabilities : p.capabilities = []
  fpu : fpu = .zero
  fsBase : p.fsBase = 0
  gsBase : p.gsBase = 0

theorem workingDirectory_new (selectors : UserSelectors)
    (stackBase pid : Nat) (abi : AbiKind) (entry stack : UInt64) :
    (new selectors stackBase pid abi entry stack).workingDirectory = [47] := by
  change (Image.toList (Image.zero.splice 0 1 fun _ => 47 : Image 128)).take 1 = [47]
  decide +kernel

theorem copyOf_forked_iff (parent : ProcessRecord) (selectors : UserSelectors)
    (stackBase childPid parentPid : Nat) (tables : Option Nat) (fpu : Image 512) :
    CopyOf parent (parent.forked selectors stackBase childPid parentPid tables) fpu ↔
      UntouchedSinceNew parent fpu := by
  have hcwd : (parent.forked selectors stackBase childPid parentPid
      tables).workingDirectory = [47] :=
    workingDirectory_new selectors stackBase childPid parent.abi parent.entryPoint parent.stackTop
  constructor
  · intro h
    exact ⟨h.brk.symm, h.mmapBump.symm, h.cwd.symm.trans hcwd, h.mask.symm, h.handlers.symm,
      h.capabilities.symm, h.fpu.symm, h.fsBase.symm, h.gsBase.symm⟩
  · intro h
    exact ⟨rfl, FdTable.cloneFrom_eq parent.fds, h.brk.symm, h.mmapBump.symm,
      hcwd.trans h.cwd.symm, h.mask.symm, h.handlers.symm, h.capabilities.symm, h.fpu.symm,
      h.fsBase.symm, h.gsBase.symm⟩

/-- A fork adds the child, marks the regions of the parent and leaves every other process
alone. -/
theorem ProcessSystem.fork_processes {s s' : ProcessSystem} {stackBase parentPid childPid : Nat}
    {parent : ProcessRecord} (hparent : s.processes parentPid = some parent)
    (h : s.fork stackBase parentPid = (some childPid, s')) :
    s'.processes childPid = some (parent.forked s.selectors stackBase childPid parentPid
        (cowForkParent s.cr3 s.memory).1) ∧
      s'.processes parentPid =
        some { parent with vmas := parent.vmas.map markCopyOnWrite } ∧
      ∀ pid, pid ≠ parentPid → pid ≠ childPid → s'.processes pid = s.processes pid := by
  have hne : parentPid ≠ s.nextPid := by
    rintro rfl
    rw [s.unused _ (Nat.le_refl _)] at hparent
    cases hparent
  rw [fork] at h
  dsimp only at h
  split at h
  · cases h
  · next p hp =>
    obtain rfl := Option.some.inj (hparent.symm.trans hp)
    obtain ⟨hpid, rfl⟩ := Prod.mk.inj h
    obtain rfl := Option.some.inj hpid
    refine ⟨update_self .., ?_, fun pid hother hchild => ?_⟩
    · dsimp only
      rw [update_of_ne hne, update_self, hparent, Option.map_some]
    · dsimp only
      rw [update_of_ne hchild, update_of_ne hother]

/-- The child of a fork is a copy of its parent, and the parent is left alone, exactly
when the parent still has the fields of a new process that a fork does not copy. -/
theorem fork_copies_iff (s s' : ProcessSystem) (stackBase parentPid childPid : Nat)
    (parent : ProcessRecord) (hparent : s.processes parentPid = some parent)
    (h : s.fork stackBase parentPid = (some childPid, s')) :
    (∃ child, s'.processes childPid = some child ∧ CopyOf parent child (s.fpuOf parentPid parent) ∧
      s'.processes parentPid =
        some { parent with vmas := parent.vmas.map markCopyOnWrite }) ↔
    UntouchedSinceNew parent (s.fpuOf parentPid parent) := by
  obtain ⟨hchild, hkept, -⟩ := ProcessSystem.fork_processes hparent h
  constructor
  · rintro ⟨child, hget, hcopy, -⟩
    rw [hchild] at hget
    obtain rfl := Option.some.inj hget
    exact (copyOf_forked_iff ..).mp hcopy
  · intro huntouched
    exact ⟨_, hchild, (copyOf_forked_iff ..).mpr huntouched, hkept⟩

def firstProcess (brk : UInt64) : ProcessRecord :=
  { new ⟨0x23, 0x1b⟩ 0 1 .linuxElf 0x400000 0x7ffffff0 with brk := brk }

/-- A system in which it is the only process, without memory to spare. -/
def oneProcess (brk : UInt64) : ProcessSystem where
  processes pid := if pid = 1 then some (firstProcess brk) else none
  nextPid := 2
  ready := []
  current := none
  fpuRegisters := .zero
  cr3 := 0
  memory := ⟨fun _ _ => .unused, fun _ => .zero, []⟩
  selectors := ⟨0x23, 0x1b⟩
  unused pid hpid := if_neg (by omega)

/-- A process that has moved its break has a child with the break of a new process. -/
theorem fork_loses_break : (firstProcess 0x20001000).brk = 0x20001000 ∧
    (((oneProcess 0x20001000).fork 0 1).2.processes 2).map (·.brk) = some 0x20000000 :=
  ⟨rfl, rfl⟩

/-- A process that is as it was created has an equal child. -/
theorem fork_copies_new : ∃ s' child,
    (oneProcess 0x20000000).fork 0 1 = (some 2, s') ∧ s'.processes 2 = some child ∧
    CopyOf (firstProcess 0x20000000) child .zero := by
  have hfork : (oneProcess 0x20000000).fork 0 1 =
      (some 2, ((oneProcess 0x20000000).fork 0 1).2) := rfl
  obtain ⟨child, hchild, hcopy, -⟩ := (fork_copies_iff _ _ 0 1 2 (firstProcess 0x20000000)
    rfl hfork).mpr ⟨rfl, rfl, workingDirectory_new .., rfl, rfl, rfl, rfl, rfl, rfl⟩
  exact ⟨_, child, hfork, hchild, hcopy⟩

end ZiqaKernel
