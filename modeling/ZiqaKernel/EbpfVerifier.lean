/-
eBPF instructions and the checks made before a program is run
(`ebpf/mod.rs`, `ebpf/verifier.rs`).
-/
import Mathlib

namespace ZiqaKernel

namespace Ebpf

/-- The eight-byte instruction format; `regs` packs two register numbers. -/
structure BpfInstruction where
  code : UInt8
  regs : UInt8
  off : Int16
  imm : Int32
  deriving DecidableEq, Repr

def BpfInstruction.dstReg (insn : BpfInstruction) : Nat := (insn.regs &&& 0x0F).toNat

def BpfInstruction.srcReg (insn : BpfInstruction) : Nat :=
  ((insn.regs >>> 4) &&& 0x0F).toNat

inductive BpfError where
  | verificationFailed (message : String)
  | executionError
  | outOfBounds
  | tailCall (handle : UInt64)
  deriving DecidableEq, Repr

inductive AluOp where
  | add
  | sub
  | mul
  | div
  | and
  | or
  | xor
  | lsh
  | rsh
  deriving DecidableEq, Repr

inductive JumpTest where
  | always
  | eq
  | ne
  | gt
  | ge
  deriving DecidableEq, Repr

/-- The second operand is the immediate value or the source register. -/
inductive Operand where
  | imm
  | reg
  deriving DecidableEq, Repr

inductive Width where
  | word
  | double
  deriving DecidableEq, Repr

inductive Opcode where
  | ldImm64
  | mov (operand : Operand)
  | alu (op : AluOp) (operand : Operand)
  | jump (test : JumpTest) (operand : Operand)
  | ldx (width : Width)
  | stx (width : Width)
  | st (width : Width)
  | call
  | ret
  deriving DecidableEq, Repr

namespace op

def ret : UInt8 := 0x95

def call : UInt8 := 0x85

def ldImm64 : UInt8 := 0x18

end op

/-- The opcodes that the interpreter knows (module `op` of the source). -/
def opcodes : List (UInt8 × Opcode) :=
  [(0x07, .alu .add .imm), (0x17, .alu .sub .imm), (0x27, .alu .mul .imm),
    (0x37, .alu .div .imm), (0x57, .alu .and .imm), (0x47, .alu .or .imm),
    (0xa7, .alu .xor .imm), (0x67, .alu .lsh .imm), (0x77, .alu .rsh .imm),
    (0x0f, .alu .add .reg), (0x1f, .alu .sub .reg), (0x2f, .alu .mul .reg),
    (0x3f, .alu .div .reg), (0x5f, .alu .and .reg), (0x4f, .alu .or .reg),
    (0xaf, .alu .xor .reg), (0x6f, .alu .lsh .reg), (0x7f, .alu .rsh .reg),
    (0x05, .jump .always .imm), (0x15, .jump .eq .imm), (0x55, .jump .ne .imm),
    (0x25, .jump .gt .imm), (0x35, .jump .ge .imm), (0x1d, .jump .eq .reg),
    (0x5d, .jump .ne .reg), (0x2d, .jump .gt .reg), (0x3d, .jump .ge .reg),
    (op.ret, .ret), (0xb7, .mov .imm), (0xbf, .mov .reg), (op.call, .call),
    (op.ldImm64, .ldImm64), (0x61, .ldx .word), (0x79, .ldx .double),
    (0x63, .stx .word), (0x7b, .stx .double), (0x62, .st .word), (0x7a, .st .double)]

def decode (code : UInt8) : Option Opcode := opcodes.lookup code

variable {code : UInt8}

theorem mem_opcodes_of_decode {opcode : Opcode}
    (h : decode code = some opcode) : (code, opcode) ∈ opcodes := by
  obtain ⟨l, r, hsplit, -⟩ := List.lookup_eq_some_iff.mp h
  rw [hsplit]
  simp

def Opcode.isJump : Opcode → Bool
  | .jump _ _ => true
  | _ => false

theorem jump_class {test : JumpTest} {operand : Operand}
    (h : decode code = some (.jump test operand)) :
    code &&& 0x07 = 0x05 ∧ code ≠ op.ret ∧ code ≠ op.call ∧ code ≠ op.ldImm64 := by
  have hall : ∀ entry ∈ opcodes, entry.2.isJump →
      entry.1 &&& 0x07 = 0x05 ∧ entry.1 ≠ op.ret ∧ entry.1 ≠ op.call ∧ entry.1 ≠ op.ldImm64 := by
    decide
  exact hall _ (mem_opcodes_of_decode h) rfl

theorem decode_ldImm64_iff : decode code = some .ldImm64 ↔ code = op.ldImm64 := by
  constructor
  · intro h
    have hall : ∀ entry ∈ opcodes, entry.2 = .ldImm64 → entry.1 = op.ldImm64 := by decide
    exact hall _ (mem_opcodes_of_decode h) rfl
  · rintro rfl
    rfl

/-- What the verifier holds against the instruction in slot `i`, if anything. -/
def reject (len i : Nat) (insn : BpfInstruction) : Option String :=
  if 11 ≤ insn.dstReg ∨ 11 ≤ insn.srcReg then some "Invalid register index"
  else if insn.code = op.ldImm64 then
    if len ≤ i + 1 then some "Truncated LD_IMM_64" else none
  else if (insn.code &&& 0x07 = 0x05 ∧ insn.code ≠ op.ret ∧ insn.code ≠ op.call) ∧
      ((i : Int) + insn.off.toInt + 1 < 0 ∨ (len : Int) ≤ i + insn.off.toInt + 1) then
    some "Jump out of bounds"
  else if insn.code &&& 0x07 = 0x01 ∨ insn.code &&& 0x07 = 0x03 ∨ insn.code &&& 0x07 = 0x02 then
    if (if insn.code &&& 0x07 = 0x01 then insn.srcReg = 10 else insn.dstReg = 10) then
      if 0 < insn.off.toInt ∨ insn.off.toInt < -512 then some "Stack access out of bounds"
      else none
    else some "Non-stack memory access forbidden"
  else none

/-- The scan from slot `i` on, given the instructions from there. -/
def scan (len : Nat) : Nat → List BpfInstruction → Option String
  | _, [] => none
  | i, insn :: rest =>
    match reject len i insn with
    | some message => some message
    | none =>
      if insn.code = op.ldImm64 then
        match rest with
        | [] => none
        | _ :: rest => scan len (i + 2) rest
      else scan len (i + 1) rest

def maxInsns : Nat := 4096

def verify (program : List BpfInstruction) : Except BpfError Unit :=
  if program = [] then .error (.verificationFailed "Empty program")
  else if maxInsns < program.length then .error (.verificationFailed "Program too large")
  else if ¬ program.any fun insn => insn.code = op.ret then
    .error (.verificationFailed "No exit instruction found")
  else
    match scan program.length 0 program with
    | some message => .error (.verificationFailed message)
    | none => .ok ()

/-- The slots that the scan takes for the start of an instruction. -/
def slots : Nat → List BpfInstruction → List Nat
  | _, [] => []
  | i, insn :: rest =>
    if insn.code = op.ldImm64 then
      match rest with
      | [] => [i]
      | _ :: rest => i :: slots (i + 2) rest
    else i :: slots (i + 1) rest

/-- The verifier has examined the slot as the start of an instruction. -/
def Examined (program : List BpfInstruction) (pc : Nat) : Prop := pc ∈ slots 0 program

instance (program : List BpfInstruction) (pc : Nat) : Decidable (Examined program pc) :=
  inferInstanceAs (Decidable (_ ∈ _))

variable {program : List BpfInstruction}

theorem verify_ok (h : verify program = .ok ()) : 0 < program.length ∧ program.length ≤ maxInsns ∧
      scan program.length 0 program = none := by
  rw [verify] at h
  split_ifs at h with hempty hlarge hexit
  refine ⟨List.length_pos_iff.mpr hempty, Nat.le_of_not_lt hlarge, ?_⟩
  cases hscan : scan program.length 0 program with
  | none => rfl
  | some message =>
    rw [hscan] at h
    cases h

variable {i pc : Nat} {rest : List BpfInstruction}

theorem le_of_mem_slots (hpc : pc ∈ slots i rest) : i ≤ pc := by
  fun_induction slots i rest with
  | case1 => cases hpc
  | case2 i insn hwide => exact Nat.le_of_eq (List.mem_singleton.mp hpc).symm
  | case3 i insn hwide second rest ih =>
    rcases List.mem_cons.mp hpc with rfl | hrest
    · exact Nat.le_refl _
    · exact Nat.le_trans (by omega) (ih hrest)
  | case4 i insn rest hwide ih =>
    rcases List.mem_cons.mp hpc with rfl | hrest
    · exact Nat.le_refl _
    · exact Nat.le_trans (by omega) (ih hrest)

def slotCount (insn : BpfInstruction) : Nat := if insn.code = op.ldImm64 then 2 else 1

theorem slotCount_pos (insn : BpfInstruction) : 0 < slotCount insn := by
  rw [slotCount]
  split_ifs <;> decide

theorem slots_cons (i : Nat) (insn : BpfInstruction) (rest : List BpfInstruction) :
    slots i (insn :: rest) =
      i :: slots (i + slotCount insn) ((insn :: rest).drop (slotCount insn)) := by
  by_cases hwide : insn.code = op.ldImm64
  · cases rest with
    | nil => simp [slots, slotCount, hwide]
    | cons second rest => simp [slots, slotCount, hwide]
  · cases rest with
    | nil => simp [slots, slotCount, hwide]
    | cons second rest => simp [slots, slotCount, hwide]

variable {insn : BpfInstruction} {len : Nat}

theorem scan_cons_eq_none (h : scan len i (insn :: rest) = none) :
    reject len i insn = none ∧
      scan len (i + slotCount insn) ((insn :: rest).drop (slotCount insn)) = none := by
  unfold scan at h
  cases hreject : reject len i insn with
  | some message => simp [hreject] at h
  | none =>
    refine ⟨rfl, ?_⟩
    rw [hreject] at h
    rw [slotCount]
    split_ifs with hwide
    · cases rest with
      | nil => rfl
      | cons second rest => simpa [hwide] using h
    · simpa [hwide] using h

theorem mem_slots_cons {k : Nat} (h : i + k ∈ slots i (insn :: rest)) :
    k = 0 ∨ ∃ k', k = slotCount insn + k' ∧ i + slotCount insn + k' ∈
      slots (i + slotCount insn) ((insn :: rest).drop (slotCount insn)) := by
  rw [slots_cons] at h
  rcases List.mem_cons.mp h with hfirst | hrest
  · exact .inl (by omega)
  · have hle := le_of_mem_slots hrest
    refine .inr ⟨k - slotCount insn, by omega, ?_⟩
    rwa [show i + slotCount insn + (k - slotCount insn) = i + k by omega]

theorem reject_of_scan {len k : Nat} (h : scan len i rest = none) (hpc : i + k ∈ slots i rest) :
    ∃ insn, rest[k]? = some insn ∧ reject len (i + k) insn = none := by
  induction hn : rest.length using Nat.strongRecOn generalizing i k rest with
  | ind n ih =>
    cases rest with
    | nil => cases hpc
    | cons insn rest =>
      obtain ⟨hreject, hscan⟩ := scan_cons_eq_none h
      rcases mem_slots_cons hpc with rfl | ⟨k', rfl, hmem⟩
      · exact ⟨insn, rfl, hreject⟩
      · have hpos := slotCount_pos insn
        obtain ⟨insn', hget, hok⟩ := ih _ (by
          rw [List.length_drop, ← hn, List.length_cons]
          omega) hscan hmem rfl
        rw [List.getElem?_drop] at hget
        exact ⟨insn', hget, by rwa [← Nat.add_assoc]⟩

theorem mem_slots_add {k : Nat} (hpc : i + k ∈ slots i rest) (hinsn : rest[k]? = some insn)
    (hlt : k + slotCount insn < rest.length) : i + k + slotCount insn ∈ slots i rest := by
  induction hn : rest.length using Nat.strongRecOn generalizing i k rest with
  | ind n ih =>
    cases rest with
    | nil => cases hpc
    | cons first rest =>
      rw [slots_cons]
      refine List.mem_cons_of_mem _ ?_
      rcases mem_slots_cons hpc with rfl | ⟨k', rfl, hmem⟩
      · obtain rfl : first = insn := by simpa using hinsn
        cases hdrop : (first :: rest).drop (slotCount first) with
        | nil =>
          have hlen := congrArg List.length hdrop
          rw [List.length_drop, List.length_nil] at hlen
          omega
        | cons second tail =>
          rw [slots_cons]
          exact List.mem_cons_self
      · have hpos := slotCount_pos first
        rw [← List.getElem?_drop] at hinsn
        have hnext := ih _ (by
          rw [List.length_drop, ← hn, List.length_cons]
          omega) hmem hinsn (by
          rw [List.length_drop]
          omega) rfl
        rwa [show i + (slotCount first + k') + slotCount insn =
          i + slotCount first + k' + slotCount insn by omega]

theorem examined_zero (h : 0 < program.length) : Examined program 0 := by
  cases program with
  | nil => cases h
  | cons insn rest =>
    rw [Examined, slots_cons]
    exact List.mem_cons_self

theorem Examined.next (h : Examined program pc)
    (hinsn : program[pc]? = some insn) (hlt : pc + slotCount insn < program.length) :
    Examined program (pc + slotCount insn) := by
  have hmem : 0 + pc + slotCount insn ∈ slots 0 program :=
    mem_slots_add (by rwa [Nat.zero_add]) hinsn hlt
  rwa [Nat.zero_add] at hmem

theorem Examined.reject (hok : verify program = .ok ()) (h : Examined program pc)
    (hinsn : program[pc]? = some insn) : reject program.length pc insn = none := by
  obtain ⟨insn', hget, hreject⟩ :=
    reject_of_scan (i := 0) (k := pc) (verify_ok hok).2.2 (by rwa [Nat.zero_add])
  obtain rfl := Option.some.inj (hinsn.symm.trans hget)
  rwa [Nat.zero_add] at hreject

/-- What is known of an instruction that is not rejected: its registers exist, and if it
jumps, the target lies in the program. -/
theorem registers_of_reject
    (h : Ebpf.reject len i insn = none) : insn.dstReg < 11 ∧ insn.srcReg < 11 := by
  rw [Ebpf.reject] at h
  split_ifs at h with hregs <;> omega

theorem target_of_reject {test : JumpTest}
    {operand : Operand} (h : Ebpf.reject len i insn = none)
    (hjump : decode insn.code = some (.jump test operand)) :
    0 ≤ (i : Int) + insn.off.toInt + 1 ∧ (i : Int) + insn.off.toInt + 1 < len := by
  obtain ⟨hclass, hret, hcall, hwide⟩ := jump_class hjump
  rw [Ebpf.reject, if_neg hwide] at h
  split_ifs at h with hregs htarget hmem
  all_goals
    have hrange := not_and.mp htarget ⟨hclass, hret, hcall⟩
    omega

end Ebpf

end ZiqaKernel
