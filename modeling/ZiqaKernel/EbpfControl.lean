/-
Which slots of an accepted program the interpreter takes for instructions, and
which programs it runs to their end without a loop.
-/
import ZiqaKernel.EbpfVm

namespace ZiqaKernel

open Fallible

namespace Ebpf

/-- The state before the instruction with number `n`, counted from 0. -/
inductive Reached (env : BpfEnv) (program : List BpfInstruction) (m : BpfMachine) :
    Nat → BpfState → Prop where
  | start : Reached env program m 0 ⟨0, m⟩
  | step {n : Nat} {st st' : BpfState} {insn : BpfInstruction}
      (hreached : Reached env program m n st) (hlt : n < maxInstructions)
      (hinsn : program[st.pc]? = some insn)
      (hstep : step env program st insn = .next st') : Reached env program m (n + 1) st'

/-- The `n`th instruction that is interpreted is `insn`, in state `st`. -/
structure Interprets (env : BpfEnv) (program : List BpfInstruction) (m : BpfMachine)
    (n : Nat) (st : BpfState) (insn : BpfInstruction) : Prop where
  reached : Reached env program m n st
  lt : n < maxInstructions
  insn : program[st.pc]? = some insn

variable {env : BpfEnv} {program : List BpfInstruction} {m : BpfMachine}
  {st : BpfState} {insn : BpfInstruction}

theorem Interprets.pc_lt {n : Nat}
    (h : Interprets env program m n st insn) : st.pc < program.length :=
  (List.getElem?_eq_some_iff.mp h.insn).1

/-- The conversions and additions on the program counter are exact. -/
def PcExact (st : BpfState) (insn : BpfInstruction) : Prop :=
  st.pc < 2 ^ 31 ∧ st.pc + 2 < UInt64.size ∧ ∀ off ∈ jumpTaken st.machine insn,
      0 ≤ (st.pc : Int) + off.toInt ∧ (st.pc : Int) + off.toInt < 2 ^ 31

/-- A jump that is taken goes to a slot other than the first that the verifier has
examined; the last instruction that the limit allows may jump into any. -/
def JumpsToExamined (program : List BpfInstruction) (n : Nat) (st : BpfState)
    (insn : BpfInstruction) : Prop :=
  ∀ off ∈ jumpTaken st.machine insn, 0 < (st.pc : Int) + off.toInt + 1 ∧
    (n + 1 < maxInstructions → Examined program (st.pc + off.toInt + 1).toNat)

variable {pc : Nat}

theorem nextPc_eq (h : pc + 1 < UInt64.size) : nextPc pc = pc + 1 := by
  rw [nextPc, Nat.mod_eq_of_lt h]

variable {off : Int16}

theorem jumpPc_eq (hpc : pc < 2 ^ 31)
    (hlo : 0 ≤ (pc : Int) + off.toInt) (hhi : (pc : Int) + off.toInt < 2 ^ 31) :
    jumpPc pc off = (pc + off.toInt).toNat := by
  have hsize : UInt32.size = 2 ^ 32 := rfl
  have hsmall : Int.bmod (pc : Int) UInt32.size = pc :=
    Int.bmod_eq_of_le (by omega) (by omega)
  have hsum : Int.bmod ((pc : Int) + off.toInt) UInt32.size = pc + off.toInt :=
    Int.bmod_eq_of_le (by omega) (by omega)
  unfold jumpPc
  rw [hsmall, hsum, Int.emod_eq_of_lt hlo (by simp only [UInt64.size]; omega)]

/-- How the interpreter goes on after an instruction that succeeds. -/
def Opcode.Continues (m : BpfMachine) (insn : BpfInstruction) (c : Control) : Opcode → Prop
  | .ldImm64 => c = .wide
  | .jump _ _ => c = (jumpTaken m insn).elim .fallThrough .jump
  | .ret => ∃ value, c = .ret value
  | _ => c = .fallThrough

variable {m' : BpfMachine}

theorem storeChecked_continues {width : Width} {value : BpfMachine → UInt64} {c : Control}
    (h : (storeChecked env insn width value).run m = (.ok c, m')) : c = .fallThrough := by
  simp only [storeChecked, run_bind_eq_ok_iff] at h
  obtain ⟨_, _, -, _, _, -, _, _, -, _, _, -, h⟩ := h
  cases h
  rfl

variable {opcode : Opcode}

theorem execOpcode_continues {c : Control}
    (h : (execOpcode env program pc insn opcode).run m = (.ok c, m')) :
    opcode.Continues m insn c := by
  cases opcode with
  | ldImm64 =>
    rw [execOpcode] at h
    split at h
    · obtain ⟨-, m₁, -, h⟩ := run_bind_eq_ok_iff.mp h
      cases h
      rfl
    · cases h
  | mov operand =>
    obtain ⟨v, m₁, -, h⟩ := run_bind_eq_ok_iff.mp h
    obtain ⟨-, m₂, -, h⟩ := run_bind_eq_ok_iff.mp h
    cases h
    rfl
  | alu op operand =>
    obtain ⟨result, m₁, -, h⟩ := run_bind_eq_ok_iff.mp h
    cases result with
    | none => cases h
    | some value =>
      obtain ⟨-, m₂, -, h⟩ := run_bind_eq_ok_iff.mp h
      cases h
      rfl
  | jump test operand =>
    obtain ⟨taken, m₁, htaken, h⟩ := run_bind_eq_ok_iff.mp h
    cases htaken
    rw [Opcode.Continues]
    cases hjump : jumpTaken m insn with
    | none =>
      simp only [hjump] at h
      cases h
      rfl
    | some off =>
      simp only [hjump] at h
      cases h
      rfl
  | ldx width =>
    simp only [execOpcode, run_bind_eq_ok_iff] at h
    obtain ⟨_, _, -, _, _, -, _, _, -, _, _, -, h⟩ := h
    cases h
    rfl
  | stx width => exact storeChecked_continues h
  | st width => exact storeChecked_continues h
  | call =>
    obtain ⟨v, m₁, -, h⟩ := run_bind_eq_ok_iff.mp h
    obtain ⟨-, m₂, -, h⟩ := run_bind_eq_ok_iff.mp h
    cases h
    rfl
  | ret =>
    obtain ⟨value, m₁, -, h⟩ := run_bind_eq_ok_iff.mp h
    cases h
    exact ⟨value, rfl⟩

theorem exec_continues {c : Control} (h : (exec env program pc insn).run m = (.ok c, m')) :
    ∃ opcode, decode insn.code = some opcode ∧ opcode.Continues m insn c := by
  unfold exec at h
  split_ifs at h with hregs
  · cases h
  · cases hdecode : decode insn.code with
    | none =>
      rw [hdecode] at h
      cases h
    | some opcode =>
      rw [hdecode] at h
      exact ⟨opcode, rfl, execOpcode_continues h⟩

theorem jumpTaken_eq_none
    (hdecode : decode insn.code = some opcode) (h : opcode.isJump = false) :
    jumpTaken m insn = none := by
  rw [jumpTaken, hdecode]
  cases opcode with
  | jump test operand => cases h
  | _ => rfl

def followingPc (pc : Nat) (insn : BpfInstruction) : Nat :=
  if insn.code = op.ldImm64 then nextPc (nextPc pc) else nextPc pc

/-- The slot to which an instruction that succeeds without a return leads. -/
def Control.pcAfter (pc : Nat) : Control → Nat
  | .fallThrough => nextPc pc
  | .wide => nextPc (nextPc pc)
  | .jump off => nextPc (jumpPc pc off)
  | .ret _ => pc

variable {st' : BpfState}

theorem step_eq_next (h : step env program st insn = .next st') :
    ∃ c m', (exec env program st.pc insn).run st.machine = (.ok c, m') ∧
      (∀ value, c ≠ .ret value) ∧ st' = ⟨c.pcAfter st.pc, m'⟩ := by
  unfold step at h
  split at h
  case h_1 => cases h
  case h_2 m' hrun => exact ⟨_, m', hrun, nofun, (StepResult.next.inj h).symm⟩
  case h_3 m' hrun => exact ⟨_, m', hrun, nofun, (StepResult.next.inj h).symm⟩
  case h_4 off m' hrun => exact ⟨_, m', hrun, nofun, (StepResult.next.inj h).symm⟩
  case h_5 => cases h

/-- An instruction that is not a return leads to its jump target when it jumps, and to
the slot that follows it otherwise. -/
theorem Opcode.Continues.pcAfter
    {c : Control} (hc : opcode.Continues m insn c) (hdecode : decode insn.code = some opcode)
    (hret : ∀ value, c ≠ .ret value) :
    c.pcAfter pc = (jumpTaken m insn).elim (followingPc pc insn)
      fun off => nextPc (jumpPc pc off) := by
  cases opcode with
  | jump test operand =>
    obtain rfl : c = _ := hc
    cases hjump : jumpTaken m insn with
    | none =>
      rw [Option.elim_none, Option.elim_none, followingPc,
        if_neg (jump_class hdecode).2.2.2, Control.pcAfter]
    | some off => rw [Option.elim_some, Option.elim_some, Control.pcAfter]
  | ldImm64 =>
    obtain rfl : c = _ := hc
    rw [jumpTaken_eq_none hdecode rfl, Option.elim_none, followingPc,
      if_pos (decode_ldImm64_iff.mp hdecode), Control.pcAfter]
  | ret =>
    obtain ⟨value, rfl⟩ := hc
    exact absurd rfl (hret value)
  | _ =>
    obtain rfl : c = .fallThrough := hc
    have hwide : insn.code ≠ op.ldImm64 := by
      intro heq
      rw [decode_ldImm64_iff.mpr heq] at hdecode
      cases hdecode
    rw [jumpTaken_eq_none hdecode rfl, Option.elim_none, followingPc, if_neg hwide, Control.pcAfter]

theorem pc_of_step (h : step env program st insn = .next st') :
    st'.pc = (jumpTaken st.machine insn).elim (followingPc st.pc insn)
      fun off => nextPc (jumpPc st.pc off) := by
  obtain ⟨c, m', hrun, hret, rfl⟩ := step_eq_next h
  obtain ⟨opcode, hdecode, hc⟩ := exec_continues hrun
  exact hc.pcAfter hdecode hret

theorem jumpTaken_eq_some (h : jumpTaken m insn = some off) :
    off = insn.off ∧ ∃ test operand, decode insn.code = some (.jump test operand) := by
  unfold jumpTaken at h
  split at h
  case h_1 test operand hdecode =>
    split_ifs at h
    exact ⟨(Option.some.inj h).symm, test, operand, hdecode⟩
  case h_2 => cases h

theorem step_of_jumpTaken (hregs : insn.dstReg < 11 ∧ insn.srcReg < 11)
    (h : jumpTaken st.machine insn = some off) :
    step env program st insn = .next ⟨nextPc (jumpPc st.pc off), st.machine⟩ := by
  obtain ⟨-, test, operand, hdecode⟩ := jumpTaken_eq_some h
  have hexec : (exec env program st.pc insn).run st.machine = (.ok (.jump off), st.machine) := by
    unfold exec
    rw [if_neg (by omega), hdecode]
    simp only [execOpcode, run_bind, run_gets, h, run_pure]
  unfold step
  rw [hexec]

theorem target_eq (hpc : pc < 2 ^ 31)
    (hlo : 0 ≤ (pc : Int) + off.toInt) (hhi : (pc : Int) + off.toInt < 2 ^ 31) :
    nextPc (jumpPc pc off) = ((pc : Int) + off.toInt + 1).toNat := by
  rw [jumpPc_eq hpc hlo hhi, nextPc_eq (by simp only [UInt64.size]; omega)]
  omega

theorem followingPc_eq (insn : BpfInstruction) (h : pc < 2 ^ 31) :
    followingPc pc insn = pc + slotCount insn := by
  rw [followingPc, slotCount]
  split_ifs
  · rw [nextPc_eq (by simp only [UInt64.size]; omega : pc + 1 < UInt64.size),
      nextPc_eq (by simp only [UInt64.size]; omega)]
  · rw [nextPc_eq (by simp only [UInt64.size]; omega)]

/-- Where all jumps go to examined slots, only examined slots are interpreted: the slot
that follows an examined instruction is examined as well. -/
theorem examined_of_reached (hok : verify program = .ok ())
    (hjumps : ∀ n st insn, Interprets env program m n st insn → JumpsToExamined program n st insn)
    {n : Nat} (h : Reached env program m n st) (hn : n < maxInstructions)
    (hpc : st.pc < program.length) : Examined program st.pc := by
  have hlen : program.length ≤ 4096 := (verify_ok hok).2.1
  induction h with
  | start => exact examined_zero hpc
  | @step n st st' insn hreached hlt hinsn hstep ih =>
    have hst := (List.getElem?_eq_some_iff.mp hinsn).1
    have hexamined := ih hlt hst
    have hnext := pc_of_step hstep
    cases hjump : jumpTaken st.machine insn with
    | none =>
      rw [hjump, Option.elim_none, followingPc_eq insn (by omega)] at hnext
      rw [hnext]
      exact hexamined.next hinsn (by omega)
    | some off =>
      obtain ⟨hpos, htarget⟩ := hjumps n st insn ⟨hreached, hlt, hinsn⟩ off hjump
      have hoff := off.toInt_lt
      rw [hjump, Option.elim_some, target_eq (by omega) (by omega) (by omega)] at hnext
      rw [hnext]
      exact htarget hn

/-- The interpreter takes only examined slots of an accepted program for instructions,
and computes the program counter exactly, precisely when every jump that is taken goes
to an examined slot after the first. -/
theorem control_flow_sound_iff (env : BpfEnv) (m : BpfMachine) (hok : verify program = .ok ()) :
    (∀ n st insn, Interprets env program m n st insn → Examined program st.pc ∧ PcExact st insn) ↔
      ∀ n st insn, Interprets env program m n st insn → JumpsToExamined program n st insn := by
  have hlen : program.length ≤ 4096 := (verify_ok hok).2.1
  constructor
  · intro hsound n st insn hi off hoff
    obtain ⟨hexamined, -, -, hexact⟩ := hsound n st insn hi
    obtain ⟨hlo, hhi⟩ := hexact off hoff
    refine ⟨by omega, fun hn => ?_⟩
    have hreject := hexamined.reject hok hi.insn
    obtain ⟨rfl, test, operand, hdecode⟩ := jumpTaken_eq_some hoff
    have htarget := target_of_reject hreject hdecode
    have hpc := hi.pc_lt
    have hstep : step env program st insn = .next _ :=
      step_of_jumpTaken (registers_of_reject hreject) hoff
    rw [target_eq (by omega) hlo hhi] at hstep
    have hlt : ((st.pc : Int) + insn.off.toInt + 1).toNat < program.length := by omega
    exact (hsound (n + 1) _ _ ⟨.step hi.reached hi.lt hi.insn hstep, hn,
      List.getElem?_eq_getElem hlt⟩).1
  · intro hjumps n st insn hi
    have hpc := hi.pc_lt
    refine ⟨examined_of_reached hok hjumps hi.reached hi.lt hpc, by omega, ?_, ?_⟩
    · simp only [UInt64.size]
      omega
    · intro off hoff
      have hpos := (hjumps n st insn hi off hoff).1
      have hbound := off.toInt_lt
      omega

def JumpsForward (env : BpfEnv) (program : List BpfInstruction) (m : BpfMachine) : Prop :=
  ∀ n st insn, Interprets env program m n st insn → ∀ off ∈ jumpTaken st.machine insn, 0 ≤ off.toInt

/-- No slot is interpreted twice, at most as many instructions as the program has slots
are interpreted, and `execute` returns what they lead to without meeting the limit. -/
structure LoopFree (env : BpfEnv) (program : List BpfInstruction) (m : BpfMachine) : Prop where
  once : ∀ n st insn n' st' insn', Interprets env program m n st insn →
    Interprets env program m n' st' insn' → st.pc = st'.pc → n = n'
  lt_length : ∀ n st insn, Interprets env program m n st insn → n < program.length
  stops : ∃ reason m', run env program program.length ⟨0, m⟩ = (reason, m') ∧
    reason ≠ .limit ∧ run env program maxInstructions ⟨0, m⟩ = (reason, m') ∧
      ((∀ handle, reason ≠ .failed (.bpf (.tailCall handle))) →
        ∀ fetch, execute env fetch maxTailCalls program m = reason.result)

theorem Reached.unique {n : Nat} {a b : BpfState} (ha : Reached env program m n a)
    (hb : Reached env program m n b) : a = b := by
  induction ha generalizing b with
  | start =>
    cases hb
    rfl
  | @step n st st' insn hreached hlt hinsn hstep ih =>
    cases hb with
    | @step _ st₂ _ insn₂ hreached₂ _ hinsn₂ hstep₂ =>
      obtain rfl := ih hreached₂
      obtain rfl := Option.some.inj (hinsn.symm.trans hinsn₂)
      exact StepResult.next.inj (hstep.symm.trans hstep₂)

theorem pc_lt_of_step (hok : verify program = .ok ()) {st' : BpfState}
    (hforward : ∀ off ∈ jumpTaken st.machine insn, 0 ≤ off.toInt)
    (hinsn : program[st.pc]? = some insn)
    (hstep : step env program st insn = .next st') : st.pc < st'.pc := by
  have hlen : program.length ≤ 4096 := (verify_ok hok).2.1
  have hpc := (List.getElem?_eq_some_iff.mp hinsn).1
  have hnext := pc_of_step hstep
  cases hjump : jumpTaken st.machine insn with
  | none =>
    rw [hjump, Option.elim_none, followingPc_eq insn (by omega)] at hnext
    have hpos := slotCount_pos insn
    omega
  | some off =>
    have hoff := hforward off hjump
    have hbound := off.toInt_lt
    rw [hjump, Option.elim_some, target_eq (by omega) (by omega) (by omega)] at hnext
    omega

section

variable (hok : verify program = .ok ()) (hforward : JumpsForward env program m)

include hok hforward

theorem Reached.pc_lt_of_lt {n k : Nat} (h : Reached env program m (n + k + 1) st) :
    ∃ st₀, Reached env program m n st₀ ∧ st₀.pc < st.pc := by
  induction k generalizing st with
  | zero =>
    cases h with
    | @step _ st₀ _ insn hreached hlt hinsn hstep =>
      exact ⟨st₀, hreached, pc_lt_of_step hok
        (hforward n st₀ insn ⟨hreached, hlt, hinsn⟩) hinsn hstep⟩
  | succ k ih =>
    cases h with
    | @step _ st₁ _ insn hreached hlt hinsn hstep =>
      obtain ⟨st₀, hst₀, hpc⟩ := ih hreached
      exact ⟨st₀, hst₀, hpc.trans (pc_lt_of_step hok
        (hforward _ st₁ insn ⟨hreached, hlt, hinsn⟩) hinsn hstep)⟩

theorem Reached.le_pc {n : Nat} (h : Reached env program m n st) : n ≤ st.pc := by
  induction h with
  | start => exact Nat.zero_le _
  | @step n st st' insn hreached hlt hinsn hstep ih =>
    exact Nat.lt_of_le_of_lt ih (pc_lt_of_step hok
      (hforward n st insn ⟨hreached, hlt, hinsn⟩) hinsn hstep)

end

theorem run_of_none (budget : Nat) (h : program[st.pc]? = none) :
    run env program budget st = (.fellOff, st.machine) := by
  unfold run
  rw [h]

theorem run_zero (h : program[st.pc]? = some insn) :
    run env program 0 st = (.limit, st.machine) := by
  unfold run
  rw [h]

theorem run_succ_of_next (budget : Nat)
    (h : program[st.pc]? = some insn) (hstep : step env program st insn = .next st') :
    run env program (budget + 1) st = run env program budget st' := by
  rw [run, h]
  simp only [hstep]

theorem run_succ_of_stop {reason : Stop} (budget : Nat) (h : program[st.pc]? = some insn)
    (hstep : step env program st insn = .stop reason m') :
    run env program (budget + 1) st = (reason, m') := by
  rw [run, h]
  simp only [hstep]

theorem step_ne_limit : step env program st insn ≠ .stop .limit m' := by
  intro h
  unfold step at h
  split at h <;> cases h

theorem reached_of_limit {n budget : Nat}
    (hreached : Reached env program m n st) (hle : n + budget ≤ maxInstructions)
    (h : (run env program budget st).1 = .limit) :
    ∃ st' insn, Reached env program m (n + budget) st' ∧ program[st'.pc]? = some insn := by
  induction budget generalizing n st with
  | zero =>
    cases hinsn : program[st.pc]? with
    | none =>
      rw [run_of_none 0 hinsn] at h
      cases h
    | some insn => exact ⟨st, insn, hreached, hinsn⟩
  | succ budget ih =>
    cases hinsn : program[st.pc]? with
    | none =>
      rw [run_of_none (budget + 1) hinsn] at h
      cases h
    | some insn =>
      cases hstep : step env program st insn with
      | stop reason m' =>
        rw [run_succ_of_stop budget hinsn hstep] at h
        obtain rfl : reason = .limit := h
        exact absurd hstep step_ne_limit
      | next st' =>
        rw [run_succ_of_next budget hinsn hstep] at h
        obtain ⟨st₂, insn₂, hreached₂, hinsn₂⟩ :=
          ih (.step hreached (by omega) hinsn hstep) (by omega) h
        exact ⟨st₂, insn₂, by rwa [Nat.add_right_comm] at hreached₂, hinsn₂⟩

theorem run_add {budget : Nat} (extra : Nat) (h : (run env program budget st).1 ≠ .limit) :
    run env program (budget + extra) st = run env program budget st := by
  induction budget generalizing st with
  | zero =>
    cases hinsn : program[st.pc]? with
    | none => rw [run_of_none _ hinsn, run_of_none _ hinsn]
    | some insn => exact absurd (congrArg Prod.fst (run_zero hinsn)) h
  | succ budget ih =>
    rw [Nat.add_right_comm]
    cases hinsn : program[st.pc]? with
    | none => rw [run_of_none _ hinsn, run_of_none _ hinsn]
    | some insn =>
      cases hstep : step env program st insn with
      | stop reason m' =>
        rw [run_succ_of_stop _ hinsn hstep, run_succ_of_stop _ hinsn hstep]
      | next st' =>
        rw [run_succ_of_next _ hinsn hstep] at h ⊢
        rw [run_succ_of_next _ hinsn hstep]
        exact ih h

theorem execute_of_run {tailCalls : Nat} {fetch : UInt64 → List BpfInstruction} {reason : Stop}
    (hrun : run env program maxInstructions ⟨0, m⟩ = (reason, m'))
    (h : ∀ handle, reason ≠ .failed (.bpf (.tailCall handle))) :
    execute env fetch tailCalls program m = reason.result := by
  unfold execute
  rw [hrun]
  split
  case h_1 handle _ heq => exact absurd (congrArg Prod.fst heq) (h handle)
  case h_2 heq => rw [(Prod.mk.inj heq).1]

/-- A run of an accepted program in which all jumps that are taken go forward is free of
loops. -/
theorem loopFree_of_jumpsForward (hok : verify program = .ok ())
    (hforward : JumpsForward env program m) : LoopFree env program m where
  once n st insn n' st' insn' hi hi' hpc := by
    rcases Nat.lt_trichotomy n n' with hlt | heq | hgt
    · obtain ⟨k, rfl⟩ := Nat.exists_eq_add_of_lt hlt
      obtain ⟨st₀, hst₀, hlater⟩ := hi'.reached.pc_lt_of_lt hok hforward
      rw [hst₀.unique hi.reached] at hlater
      omega
    · exact heq
    · obtain ⟨k, rfl⟩ := Nat.exists_eq_add_of_lt hgt
      obtain ⟨st₀, hst₀, hlater⟩ := hi.reached.pc_lt_of_lt hok hforward
      rw [hst₀.unique hi'.reached] at hlater
      omega
  lt_length n st insn hi :=
    Nat.lt_of_le_of_lt (hi.reached.le_pc hok hforward) hi.pc_lt
  stops := by
    have hlen : program.length ≤ 4096 := (verify_ok hok).2.1
    have hmax : maxInstructions = 1000000 := rfl
    have hne : (run env program program.length ⟨0, m⟩).1 ≠ .limit := by
      intro hlimit
      obtain ⟨st, insn, hreached, hinsn⟩ := reached_of_limit .start (by omega) hlimit
      have hle := hreached.le_pc hok hforward
      have hlt := (List.getElem?_eq_some_iff.mp hinsn).1
      omega
    have hrun := run_add (maxInstructions - program.length) hne
    rw [Nat.add_sub_cancel' (by omega)] at hrun
    exact ⟨_, _, rfl, hne, hrun, fun htail _ => execute_of_run hrun htail⟩

def exampleEnv : BpfEnv where
  stackBase := 4096
  maps := []
  reading _ := 0
  stackBase_ge := by decide
  stackBase_lt := by decide

def zeroMachine : BpfMachine where
  registers _ := 0
  memory _ := 0
  accesses := []
  readings := 0

def jumpForward : List BpfInstruction := [⟨0x05, 0, 0, 0⟩, ⟨0x95, 0, 0, 0⟩]

theorem jumpForward_sound : verify jumpForward = .ok () ∧
      ∀ n st insn, Interprets exampleEnv jumpForward zeroMachine n st insn →
        Examined jumpForward st.pc ∧ PcExact st insn := by
  refine ⟨rfl, (control_flow_sound_iff exampleEnv zeroMachine rfl).mpr ?_⟩
  intro n st insn hi off hoff
  obtain ⟨rfl, test, operand, hdecode⟩ := jumpTaken_eq_some hoff
  have hpc : st.pc = 0 ∨ st.pc = 1 := by
    have hlt := hi.pc_lt
    have hlen : jumpForward.length = 2 := rfl
    omega
  have hinsn := hi.insn
  rcases hpc with hpc | hpc
  · rw [hpc] at hinsn ⊢
    cases hinsn
    exact ⟨by decide, fun _ => by decide⟩
  · rw [hpc] at hinsn
    cases hinsn
    cases hdecode

def jumpIntoWide : List BpfInstruction :=
  [⟨0x05, 0, 1, 0⟩, ⟨0x18, 0, 0, 0⟩, ⟨0, 0, 0, 0⟩, ⟨0x95, 0, 0, 0⟩]

/-- The verifier accepts the program, and the interpreter goes to a slot that the
verifier has skipped. -/
theorem jumpIntoWide_unsound : verify jumpIntoWide = .ok () ∧
      ∃ n st insn, Interprets exampleEnv jumpIntoWide zeroMachine n st insn ∧
        ¬ Examined jumpIntoWide st.pc := by
  have htaken : jumpTaken (⟨0, zeroMachine⟩ : BpfState).machine ⟨0x05, 0, 1, 0⟩ = some 1 :=
    rfl
  have hstep : step exampleEnv jumpIntoWide ⟨0, zeroMachine⟩ ⟨0x05, 0, 1, 0⟩ =
      .next ⟨2, zeroMachine⟩ :=
    step_of_jumpTaken ⟨by decide, by decide⟩ htaken
  exact ⟨rfl, 1, ⟨2, zeroMachine⟩, ⟨0, 0, 0, 0⟩,
    ⟨.step .start (by decide) rfl hstep, by decide, rfl⟩, by decide⟩

theorem jumpForward_loopFree :
    verify jumpForward = .ok () ∧ LoopFree exampleEnv jumpForward zeroMachine := by
  refine ⟨rfl, loopFree_of_jumpsForward rfl fun n st insn hi off hoff => ?_⟩
  obtain ⟨rfl, test, operand, hdecode⟩ := jumpTaken_eq_some hoff
  have hmem : insn ∈ jumpForward := List.mem_of_getElem? hi.insn
  have hall : ∀ insn ∈ jumpForward, 0 ≤ insn.off.toInt := by decide
  exact hall insn hmem

def spin : List BpfInstruction := [⟨0xb7, 0, 0, 0⟩, ⟨0x05, 0, -1, 0⟩, ⟨0x95, 0, 0, 0⟩]

theorem spin_step (m : BpfMachine) :
    step exampleEnv spin ⟨1, m⟩ ⟨0x05, 0, -1, 0⟩ = .next ⟨1, m⟩ := by
  have htaken : jumpTaken (⟨1, m⟩ : BpfState).machine ⟨0x05, 0, -1, 0⟩ = some (-1) := rfl
  have htarget : nextPc (jumpPc 1 (-1)) = 1 := by decide
  rw [step_of_jumpTaken ⟨by decide, by decide⟩ htaken, htarget]

/-- The verifier accepts the program, and the interpreter jumps until the limit ends the
run. -/
theorem spin_meets_limit (budget : Nat) (m : BpfMachine) :
    run exampleEnv spin budget ⟨1, m⟩ = (.limit, m) := by
  induction budget with
  | zero => exact run_zero rfl
  | succ budget ih =>
    rw [run_succ_of_next budget rfl (spin_step m)]
    exact ih

theorem spin_not_loopFree : verify spin = .ok () ∧ ¬ LoopFree exampleEnv spin zeroMachine := by
  refine ⟨rfl, fun hfree => ?_⟩
  obtain ⟨reason, m', -, hne, hrun, -⟩ := hfree.stops
  have hfirst : step exampleEnv spin ⟨0, zeroMachine⟩ ⟨0xb7, 0, 0, 0⟩ =
      .next ⟨1, zeroMachine.setRegister 0 0⟩ := rfl
  have hlimit : run exampleEnv spin (999999 + 1) ⟨0, zeroMachine⟩ =
      (.limit, zeroMachine.setRegister 0 0) := by
    rw [run_succ_of_next 999999 rfl hfirst]
    exact spin_meets_limit 999999 _
  exact hne (congrArg Prod.fst (hrun.symm.trans hlimit))

end Ebpf

end ZiqaKernel
