/-
The eBPF interpreter with its maps and helper functions (`ebpf/vm.rs`,
`ebpf/map.rs`), over one flat memory.  Each access through a pointer of the
program is recorded with the address range that it covers.
-/
import ZiqaKernel.ByteImage
import ZiqaKernel.FallibleState
import ZiqaKernel.EbpfVerifier

namespace ZiqaKernel

open Fallible

namespace Ebpf

structure Access where
  addr : Nat
  size : Nat
  deriving DecidableEq, Repr

/-- Registers and memory, the accesses so far, and how often a helper has read the
clock, the process id or the processor number. -/
structure BpfMachine where
  registers : Nat → UInt64
  memory : Nat → UInt8
  accesses : List Access
  readings : Nat

/-- The interpreter stops with an error of its own or takes the kernel down. -/
inductive Fault where
  | panic
  | bpf (error : BpfError)
  deriving DecidableEq, Repr

abbrev BpfM (α : Type) := Fallible BpfMachine Fault α

def BpfMachine.setRegister (m : BpfMachine) (dst : Nat) (value : UInt64) : BpfMachine :=
  { m with registers := Function.update m.registers dst value }

def BpfMachine.record (m : BpfMachine) (access : Access) : BpfMachine :=
  { m with accesses := m.accesses ++ [access] }

def register (i : Nat) : BpfM UInt64 := gets fun m => m.registers i

def setRegister (dst : Nat) (value : UInt64) : BpfM Unit :=
  modify fun m => m.setRegister dst value

/-- Read `size` bytes; the value has the first byte in its lowest bits. -/
def load (addr size : Nat) : BpfM Nat :=
  ⟨fun m => (.ok (packBytes (fun k => m.memory (addr + k)) size), m.record ⟨addr, size⟩)⟩

def store (addr size value : Nat) : BpfM Unit :=
  modify fun m =>
    { m.record ⟨addr, size⟩ with
      memory := fun a =>
        if addr ≤ a ∧ a < addr + size then UInt8.ofNat (value >>> (8 * (a - addr)))
        else m.memory a }

inductive BpfMapType where
  | array
  | hash
  | ringBuf
  | progArray
  deriving DecidableEq, Repr

/-- A map; the bytes of its data vector start at `dataAddr`. -/
structure BpfMap where
  mapType : BpfMapType
  keySize : UInt32
  valueSize : UInt32
  maxEntries : UInt32
  dataAddr : UInt64
  deriving DecidableEq, Repr

namespace BpfMap

variable (map : BpfMap)

/-- `checked_mul` on 32 bits, with 0 for an overflow. -/
def product (size count : Nat) : Nat := if size * count < UInt32.size then size * count else 0

/-- The number of bytes that `BpfMap::new` allocates. -/
def dataLen : Nat :=
  match map.mapType with
  | .array | .progArray => product map.valueSize.toNat map.maxEntries.toNat
  | .hash =>
    product (min (min (1 + map.keySize.toNat) (UInt32.size - 1) + map.valueSize.toNat)
      (UInt32.size - 1)) map.maxEntries.toNat
  | .ringBuf => map.maxEntries.toNat

def isArray : Bool := map.mapType == .array || map.mapType == .progArray

def indexOffset (index : UInt32) : Nat := (index * map.valueSize).toNat

def entrySize : Nat := (1 + map.keySize + map.valueSize).toNat

def dataRange (lo hi : Nat) : BpfM Nat :=
  if lo ≤ hi ∧ hi ≤ map.dataLen then load (map.dataAddr.toNat + lo) (hi - lo)
  else fail .panic

/-- `copy_from_slice` into part of the data vector. -/
def setDataRange (lo hi size value : Nat) : BpfM Unit :=
  if lo ≤ hi ∧ hi ≤ map.dataLen ∧ hi - lo = size then
    store (map.dataAddr.toNat + lo) size value
  else fail .panic

/-- The offset of the first entry in use that has the given key, among `count` entries
from the `i`th on. -/
def findKey (key : Nat) : Nat → Nat → BpfM (Option Nat)
  | 0, _ => pure none
  | count + 1, i => do
      let offset := i * map.entrySize
      let used ← map.dataRange offset (offset + 1)
      if used = 1 then
        let k ← map.dataRange (offset + 1) (offset + 1 + map.keySize.toNat)
        if k = key then pure (some offset) else findKey key count (i + 1)
      else findKey key count (i + 1)

def findFree : Nat → Nat → BpfM (Option Nat)
  | 0, _ => pure none
  | count + 1, i => do
      let offset := i * map.entrySize
      let used ← map.dataRange offset (offset + 1)
      if used = 0 then pure (some offset) else findFree count (i + 1)

/-- The pointer to an array entry, null for an index out of range. -/
def lookupIndex (index : UInt32) : UInt64 :=
  if map.maxEntries ≤ index then 0
  else map.dataAddr + UInt64.ofNat (map.indexOffset index)

def lookup (keyPtr : UInt64) : BpfM UInt64 := do
  if map.isArray then
    let index ← load keyPtr.toNat 4
    pure (map.lookupIndex (UInt32.ofNat index))
  else if map.mapType = .hash then
    let key ← load keyPtr.toNat map.keySize.toNat
    match ← map.findKey key map.maxEntries.toNat 0 with
    | some offset =>
      pure (map.dataAddr + UInt64.ofNat (offset + 1 + map.keySize.toNat))
    | none => pure 0
  else fail (.bpf .executionError)

def updateIndex (index : UInt32) (valuePtr : UInt64) : BpfM UInt64 := do
  if map.maxEntries ≤ index then pure 1
  else
    let value ← load valuePtr.toNat map.valueSize.toNat
    store (map.dataAddr.toNat + map.indexOffset index) map.valueSize.toNat value
    pure 0

def updateKey (key value : Nat) : BpfM UInt64 := do
  let keySize := map.keySize.toNat
  match ← map.findKey key map.maxEntries.toNat 0 with
  | some offset =>
    map.setDataRange (offset + 1 + keySize) (offset + map.entrySize) map.valueSize.toNat value
    pure 0
  | none =>
    match ← map.findFree map.maxEntries.toNat 0 with
    | some offset =>
      map.setDataRange offset (offset + 1) 1 1
      map.setDataRange (offset + 1) (offset + 1 + keySize) keySize key
      map.setDataRange (offset + 1 + keySize) (offset + map.entrySize) map.valueSize.toNat value
      pure 0
    | none => pure 1

def update (keyPtr valuePtr : UInt64) : BpfM UInt64 := do
  if map.isArray then
    let index ← load keyPtr.toNat 4
    map.updateIndex (UInt32.ofNat index) valuePtr
  else if map.mapType = .hash then
    let key ← load keyPtr.toNat map.keySize.toNat
    let value ← load valuePtr.toNat map.valueSize.toNat
    map.updateKey key value
  else fail (.bpf .executionError)

def deleteIndex (index : UInt32) : BpfM UInt64 := do
  if map.maxEntries ≤ index then pure 1
  else
    store (map.dataAddr.toNat + map.indexOffset index) map.valueSize.toNat 0
    pure 0

def deleteKey (key : Nat) : BpfM UInt64 := do
  match ← map.findKey key map.maxEntries.toNat 0 with
  | some offset =>
    map.setDataRange offset (offset + 1) 1 0
    pure 0
  | none => pure 1

def delete (keyPtr : UInt64) : BpfM UInt64 := do
  if map.isArray then
    let index ← load keyPtr.toNat 4
    map.deleteIndex (UInt32.ofNat index)
  else if map.mapType = .hash then
    let key ← load keyPtr.toNat map.keySize.toNat
    map.deleteKey key
  else fail (.bpf .executionError)

end BpfMap

/-- What stays fixed while a program runs: the end of the stack, the registered maps, and
what successive readings of the clock, the process id and the processor number give.
The stack is an object in memory, so it ends before the last address. -/
structure BpfEnv where
  stackBase : UInt64
  maps : List BpfMap
  reading : Nat → UInt64
  stackBase_ge : 512 ≤ stackBase.toNat
  stackBase_lt : stackBase.toNat < UInt64.size - 1

namespace BpfEnv

variable (env : BpfEnv)

def stackStart : Nat := env.stackBase.toNat - 512

/-- `is_stack_ptr`, with an addition that saturates. -/
def isStackPtr (addr : UInt64) (size : Nat) : Bool :=
  let last := min (addr.toNat + size) (UInt64.size - 1)
  if addr.toNat < env.stackStart then false
  else if last < addr.toNat then false
  else last ≤ env.stackBase.toNat

def validateMemAccess (addr : UInt64) (size : Nat) : BpfM Unit :=
  if env.isStackPtr addr size then pure () else fail (.bpf .outOfBounds)

/-- The next reading of a value that changes while the program runs. -/
def nextReading : BpfM UInt64 :=
  ⟨fun m => (.ok (env.reading m.readings), { m with readings := m.readings + 1 })⟩

end BpfEnv

inductive Helper where
  | mapLookupElem
  | mapUpdateElem
  | mapDeleteElem
  | ktimeGetNs
  | tracePrintk
  | getCurrentPidTgid
  | getCurrentComm
  | probeRead
  | tailCall
  | getSmpProcessorId
  deriving DecidableEq, Repr

/-- The helper ids (module `helpers` of the source). -/
def helpers : List (Int32 × Helper) :=
  [(1, .mapLookupElem), (2, .mapUpdateElem), (3, .mapDeleteElem), (4, .ktimeGetNs),
    (5, .tracePrintk), (6, .getCurrentPidTgid), (7, .getCurrentComm), (8, .probeRead),
    (9, .tailCall), (10, .getSmpProcessorId)]

def programSize : Nat := 32

/-- The name `ziqa-proc` with its final zero byte. -/
def comm : List UInt8 := [0x7a, 0x69, 0x71, 0x61, 0x2d, 0x70, 0x72, 0x6f, 0x63, 0]

namespace BpfEnv

variable (env : BpfEnv)

/-- Run an operation of the map with the id in R1, if there is one. -/
def withMap (absent : UInt64) (f : BpfMap → BpfM UInt64) : BpfM UInt64 := do
  let id ← register 1
  match env.maps[id.toNat]? with
  | some map => f map
  | none => pure absent

/-- Fill a buffer with the process name; what is left of it, up to 512 bytes, is cleared
although only the bytes that are copied, at most `len`, have been validated. -/
def writeComm (buf : UInt64) (size len : Nat) : BpfM Unit :=
  if env.isStackPtr buf len then do
    store buf.toNat len (packBytes (fun k => comm.getD k 0) comm.length)
    if len < size ∧ len < 512 then
      store (buf.toNat + len) (min (size - len) (512 - len)) 0
    else pure ()
  else pure ()

def getCurrentComm : BpfM UInt64 := do
  let buf ← register 1
  let size ← register 2
  env.writeComm buf size.toNat (min (min size.toNat 512) comm.length)
  pure 0

def copyStack (dst src : UInt64) (size : Nat) : BpfM Unit :=
  if env.isStackPtr dst size && env.isStackPtr src size then do
    let value ← load src.toNat size
    store dst.toNat size value
  else pure ()

def probeRead : BpfM UInt64 := do
  let dst ← register 1
  let size ← register 2
  let src ← register 3
  env.copyStack dst src (min size.toNat 512)
  pure 0

/-- Read the format string; what is printed leaves no trace in the machine. -/
def tracePrintk : BpfM UInt64 := do
  let fmt ← register 1
  let size ← register 2
  let _ ← load fmt.toNat (min size.toNat 64)
  pure 0

/-- Go on with the program whose record the handle in a program array points to. -/
def tailCallEntry (map : BpfMap) (index : UInt32) : BpfM UInt64 :=
  if map.mapType = .progArray ∧ map.lookupIndex index ≠ 0 then do
    let handle ← load (map.lookupIndex index).toNat 8
    if handle ≠ 0 then
      let _ ← load handle programSize
      fail (.bpf (.tailCall (UInt64.ofNat handle)))
    else pure 0
  else pure 0

/-- The index comes in R2 itself; the key that is looked up is a local of the helper. -/
def tailCall : BpfM UInt64 := do
  let index ← register 2
  env.withMap 0 fun map => tailCallEntry map index.toUInt32

def runHelper : Helper → BpfM UInt64
  | .mapLookupElem => do
      let key ← register 2
      env.withMap 0 fun map => map.lookup key
  | .mapUpdateElem => do
      let key ← register 2
      let value ← register 3
      env.withMap 1 fun map => map.update key value
  | .mapDeleteElem => do
      let key ← register 2
      env.withMap 1 fun map => map.delete key
  | .ktimeGetNs => do
      let uptimeMs ← env.nextReading
      pure (uptimeMs * 1000000)
  | .tracePrintk => tracePrintk
  | .getCurrentPidTgid => env.nextReading
  | .getCurrentComm => env.getCurrentComm
  | .probeRead => env.probeRead
  | .tailCall => env.tailCall
  | .getSmpProcessorId => env.nextReading

def callHelper (id : Int32) : BpfM UInt64 :=
  match helpers.lookup id with
  | some helper => env.runHelper helper
  | none => fail (.bpf .executionError)

end BpfEnv

inductive Control where
  | fallThrough
  | wide
  | jump (off : Int16)
  | ret (value : UInt64)
  deriving DecidableEq, Repr

/-- `imm as u64`, which extends the sign. -/
def BpfInstruction.immValue (insn : BpfInstruction) : UInt64 := insn.imm.toInt64.toUInt64

def operandValue (m : BpfMachine) (insn : BpfInstruction) : Operand → UInt64
  | .imm => insn.immValue
  | .reg => m.registers insn.srcReg

/-- Division by zero is the one operation that fails; shifts use the low six bits. -/
def AluOp.apply : AluOp → UInt64 → UInt64 → Option UInt64
  | .add, a, b => some (a + b)
  | .sub, a, b => some (a - b)
  | .mul, a, b => some (a * b)
  | .div, a, b => if b = 0 then none else some (a / b)
  | .and, a, b => some (a &&& b)
  | .or, a, b => some (a ||| b)
  | .xor, a, b => some (a ^^^ b)
  | .lsh, a, b => some (a <<< (b % 64))
  | .rsh, a, b => some (a >>> (b % 64))

def JumpTest.holds : JumpTest → UInt64 → UInt64 → Bool
  | .always, _, _ => true
  | .eq, a, b => a == b
  | .ne, a, b => a != b
  | .gt, a, b => b < a
  | .ge, a, b => b ≤ a

def Width.bytes : Width → Nat
  | .word => 4
  | .double => 8

/-- The offset that the instruction jumps by, when it is a jump that is taken. -/
def jumpTaken (m : BpfMachine) (insn : BpfInstruction) : Option Int16 :=
  match decode insn.code with
  | some (.jump test operand) =>
    if test.holds (m.registers insn.dstReg) (operandValue m insn operand) then
      some insn.off
    else none
  | _ => none

def memAddr (m : BpfMachine) (insn : BpfInstruction) (base : Nat) : UInt64 :=
  m.registers base + insn.off.toInt64.toUInt64

/-- The stores check their address, then write the low bytes of the value. -/
def storeChecked (env : BpfEnv) (insn : BpfInstruction) (width : Width)
    (value : BpfMachine → UInt64) : BpfM Control := do
  let addr ← gets fun m => memAddr m insn insn.dstReg
  env.validateMemAccess addr width.bytes
  let v ← gets value
  store addr.toNat width.bytes v.toNat
  pure .fallThrough

def execOpcode (env : BpfEnv) (program : List BpfInstruction) (pc : Nat)
    (insn : BpfInstruction) : Opcode → BpfM Control
  | .ldImm64 =>
    match program[pc + 1]? with
    | some next => do
        setRegister insn.dstReg (insn.imm.toUInt32.toUInt64 ||| (next.immValue <<< 32))
        pure .wide
    | none => fail (.bpf .executionError)
  | .mov operand => do
      let value ← gets fun m => operandValue m insn operand
      setRegister insn.dstReg value
      pure .fallThrough
  | .alu op operand => do
      let result ← gets fun m =>
        op.apply (m.registers insn.dstReg) (operandValue m insn operand)
      match result with
      | some value => do
          setRegister insn.dstReg value
          pure .fallThrough
      | none => fail (.bpf .executionError)
  | .jump _ _ => do
      let taken ← gets fun m => jumpTaken m insn
      match taken with
      | some off => pure (.jump off)
      | none => pure .fallThrough
  | .ldx width => do
      let addr ← gets fun m => memAddr m insn insn.srcReg
      env.validateMemAccess addr width.bytes
      let value ← load addr.toNat width.bytes
      setRegister insn.dstReg (UInt64.ofNat value)
      pure .fallThrough
  | .stx width => storeChecked env insn width fun m => m.registers insn.srcReg
  | .st width => storeChecked env insn width fun _ => insn.immValue
  | .call => do
      let value ← env.callHelper insn.imm
      setRegister 0 value
      pure .fallThrough
  | .ret => do
      let value ← register 0
      pure (.ret value)

def exec (env : BpfEnv) (program : List BpfInstruction) (pc : Nat)
    (insn : BpfInstruction) : BpfM Control :=
  if 11 ≤ insn.dstReg ∨ 11 ≤ insn.srcReg then fail (.bpf .outOfBounds)
  else
    match decode insn.code with
    | some opcode => execOpcode env program pc insn opcode
    | none => fail (.bpf .executionError)

structure BpfState where
  pc : Nat
  machine : BpfMachine

inductive Stop where
  | returned (value : UInt64)
  | failed (fault : Fault)
  | fellOff
  | limit
  deriving DecidableEq, Repr

inductive StepResult where
  | next (state : BpfState)
  | stop (reason : Stop) (machine : BpfMachine)

/-- `(pc as i32 + off as i32) as usize`. -/
def jumpPc (pc : Nat) (off : Int16) : Nat :=
  (Int.bmod (Int.bmod pc UInt32.size + off.toInt) UInt32.size % UInt64.size).toNat

/-- `pc += 1`. -/
def nextPc (pc : Nat) : Nat := (pc + 1) % UInt64.size

def step (env : BpfEnv) (program : List BpfInstruction) (st : BpfState)
    (insn : BpfInstruction) : StepResult :=
  match (exec env program st.pc insn).run st.machine with
  | (.ok (.ret value), m) => .stop (.returned value) m
  | (.ok .fallThrough, m) => .next ⟨nextPc st.pc, m⟩
  | (.ok .wide, m) => .next ⟨nextPc (nextPc st.pc), m⟩
  | (.ok (.jump off), m) => .next ⟨nextPc (jumpPc st.pc off), m⟩
  | (.error fault, m) => .stop (.failed fault) m

def maxInstructions : Nat := 1000000

/-- Interpret at most `budget` instructions. -/
def run (env : BpfEnv) (program : List BpfInstruction) : Nat → BpfState → Stop × BpfMachine
  | budget, st =>
    match program[st.pc]? with
    | none => (.fellOff, st.machine)
    | some insn =>
      match budget with
      | 0 => (.limit, st.machine)
      | budget + 1 =>
        match step env program st insn with
        | .next st' => run env program budget st'
        | .stop reason m => (reason, m)

def maxTailCalls : Nat := 32

/-- The outcome that the caller of the interpreter sees; `none` is a kernel panic. -/
def Stop.result : Stop → Option (Except BpfError UInt64)
  | .returned value => some (.ok value)
  | .failed .panic => none
  | .failed (.bpf error) => some (.error error)
  | .fellOff => some (.error .executionError)
  | .limit => some (.error .executionError)

/-- `execute`, where `tailCalls` more tail calls are allowed and `fetch` gives the program
behind a handle. -/
def execute (env : BpfEnv) (fetch : UInt64 → List BpfInstruction) :
    Nat → List BpfInstruction → BpfMachine → Option (Except BpfError UInt64)
  | tailCalls, program, m =>
    match run env program maxInstructions ⟨0, m⟩ with
    | (.failed (.bpf (.tailCall handle)), m') =>
      match tailCalls with
      | 0 => some (.error .executionError)
      | tailCalls + 1 => execute env fetch tailCalls (fetch handle) m'
    | (reason, _) => reason.result

end Ebpf

end ZiqaKernel
