/-
The process record (`process/mod.rs`) with everything that a fork or a snapshot
has to carry over.
-/
import ZiqaKernel.Capability
import ZiqaKernel.FileDescriptors
import ZiqaKernel.PageCompression
import ZiqaKernel.Scheduler

namespace ZiqaKernel

inductive AbiKind where
  | linuxElf
  | wasm
  | ziqaNative
  | redoxElf
deriving DecidableEq

/-- `CpuState`. -/
structure CpuState where
  rax : UInt64
  rcx : UInt64
  rdx : UInt64
  rbx : UInt64
  rbp : UInt64
  rsi : UInt64
  rdi : UInt64
  r8 : UInt64
  r9 : UInt64
  r10 : UInt64
  r11 : UInt64
  r12 : UInt64
  r13 : UInt64
  r14 : UInt64
  r15 : UInt64
  rip : UInt64
  cs : UInt64
  rflags : UInt64
  rsp : UInt64
  ss : UInt64
deriving DecidableEq

def CpuState.zero : CpuState :=
  ⟨0, 0, 0, 0, 0, 0, 0, 0, 0, 0, 0, 0, 0, 0, 0, 0, 8, 0x202, 0, 0⟩

inductive SignalAction where
  | default
  | ignore
  | handler (addr : UInt64)
deriving DecidableEq

structure SignalState where
  pending : UInt32
  blocked : UInt32
  actions : Vector SignalAction 32
  pendingSignal : UInt8
  handlerAddr : UInt64

def SignalState.new : SignalState :=
  ⟨0, 0, Vector.replicate 32 .default, 0, 0⟩

/-- `Vma` with the fields that page faults do not look at. -/
structure VmaRecord extends Vma where
  readable : Bool
  isFileBacked : Bool
  filePath : Option (List UInt8)
  bcoHook : Option UInt32

/-- `Process`.  Of the kernel stack only its place is kept. -/
structure ProcessRecord where
  pid : Nat
  state : ProcessState
  abi : AbiKind
  priority : UInt8
  capabilities : CapabilitySpace
  cpuState : CpuState
  fpuState : Image 512
  vmas : List VmaRecord
  entryPoint : UInt64
  stackTop : UInt64
  signals : SignalState
  parent : Nat
  exitCode : Int
  joinWaiters : List Nat
  fds : FdTable
  brk : UInt64
  cwd : Image 128
  cwdLen : Nat
  mmapBump : UInt64
  binaryData : List UInt8
  pageTableFrame : Option Nat
  kernelStackPtr : Nat
  kernelStack : Option Nat
  kernelStackTop : Nat
  totalTicks : Nat
  vruntime : Nat
  fsBase : UInt64
  gsBase : UInt64
  timedOut : Bool
  interpreter : Option (List UInt8)
  elfPhdr : UInt64
  elfPhent : UInt64
  elfPhnum : UInt64
  argv : List (List UInt8)
  envp : List (List UInt8)

namespace ProcessRecord

structure UserSelectors where
  code : UInt64
  data : UInt64

/-- `Process::new`, when a kernel stack would be placed at `stackBase`.  The boot
process, which has no user stack, gets none. -/
def new (selectors : UserSelectors) (stackBase : Nat) (pid : Nat) (abi : AbiKind)
    (entry stack : UInt64) : ProcessRecord where
  pid := pid
  state := .created
  abi := abi
  priority := 2
  capabilities := []
  cpuState := { CpuState.zero with
    rip := entry
    rsp := stack
    cs := selectors.code
    ss := selectors.data }
  fpuState := .zero
  vmas := []
  entryPoint := entry
  stackTop := stack
  signals := .new
  parent := 0
  exitCode := 0
  joinWaiters := []
  fds := .new
  brk := 0x20000000
  cwd := Image.zero.splice 0 1 fun _ => 47
  cwdLen := 1
  mmapBump := 0x70000000
  binaryData := []
  pageTableFrame := none
  kernelStackPtr := if stack ≠ 0 then stackBase + 65536 else 0
  kernelStack := if stack ≠ 0 then some stackBase else none
  kernelStackTop := if stack ≠ 0 then stackBase + 65536 else 0
  totalTicks := 0
  vruntime := 0
  fsBase := 0
  gsBase := 0
  timedOut := false
  interpreter := none
  elfPhdr := 0
  elfPhent := 0
  elfPhnum := 0
  argv := []
  envp := []

def workingDirectory (p : ProcessRecord) : List UInt8 := p.cwd.toList.take p.cwdLen

end ProcessRecord

end ZiqaKernel
