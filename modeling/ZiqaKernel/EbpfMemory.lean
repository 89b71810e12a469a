/-
The memory that a program reads and writes: direct loads and stores stay in the
stack window, and so do the helper calls whose pointers meet a condition on the
registers and maps.
-/
import ZiqaKernel.EbpfControl

namespace ZiqaKernel

namespace Ebpf

variable {env : BpfEnv} {program : List BpfInstruction} {m : BpfMachine}

/-- The address lies in the stack window or in the data of a registered map. -/
def BpfEnv.Owns (env : BpfEnv) (addr : Nat) : Prop :=
  env.stackStart ≤ addr ∧ addr < env.stackBase.toNat ∨
    ∃ map ∈ env.maps, map.dataAddr.toNat ≤ addr ∧ addr < map.dataAddr.toNat + map.dataLen

def BpfEnv.Confines (env : BpfEnv) (addr size : Nat) : Prop :=
  ∀ k < size, env.Owns (addr + k)

def BpfEnv.Confined (env : BpfEnv) (m : BpfMachine) : Prop :=
  ∀ access ∈ m.accesses, env.Confines access.addr access.size

/-- The value of `size` bytes in memory. -/
def BpfMachine.valueAt (m : BpfMachine) (addr size : Nat) : Nat :=
  packBytes (fun k => m.memory (addr + k)) size

def BpfEnv.mapOf (env : BpfEnv) (m : BpfMachine) : Option BpfMap :=
  env.maps[(m.registers 1).toNat]?

def BpfMachine.indexAt (m : BpfMachine) (key : UInt64) : UInt32 :=
  UInt32.ofNat (m.valueAt key.toNat 4)

def BpfMap.keyBytes (map : BpfMap) : Nat :=
  if map.isArray then 4 else if map.mapType = .hash then map.keySize.toNat else 0

/-- The entry of an array index is owned, unless the index is out of range. -/
def BpfMap.EntryConfined (env : BpfEnv) (map : BpfMap) (index : UInt32) : Prop :=
  index < map.maxEntries →
    env.Confines (map.dataAddr.toNat + map.indexOffset index) map.valueSize.toNat

def BpfMap.LookupConfined (env : BpfEnv) (map : BpfMap) (key : UInt64) : Prop :=
  env.Confines key.toNat map.keyBytes

def BpfMap.UpdateConfined (env : BpfEnv) (map : BpfMap) (key value : UInt64)
    (m : BpfMachine) : Prop :=
  env.Confines key.toNat map.keyBytes ∧
    if map.isArray then
      m.indexAt key < map.maxEntries →
        env.Confines value.toNat map.valueSize.toNat ∧ map.EntryConfined env (m.indexAt key)
    else map.mapType = .hash → env.Confines value.toNat map.valueSize.toNat

def BpfMap.DeleteConfined (env : BpfEnv) (map : BpfMap) (key : UInt64) (m : BpfMachine) : Prop :=
  env.Confines key.toNat map.keyBytes ∧ (map.isArray → map.EntryConfined env (m.indexAt key))

/-- The entry that a tail call reads and the program record behind its handle. -/
def BpfMap.TailCallConfined (env : BpfEnv) (map : BpfMap) (index : UInt32)
    (m : BpfMachine) : Prop :=
  map.mapType = .progArray ∧ map.lookupIndex index ≠ 0 →
    env.Confines (map.lookupIndex index).toNat 8 ∧ (m.valueAt (map.lookupIndex index).toNat 8 ≠ 0 →
        env.Confines (m.valueAt (map.lookupIndex index).toNat 8) programSize)

/-- The condition on registers, memory and maps under which a helper stays in owned
memory.  `GET_CURRENT_COMM` clears up to 512 bytes from the buffer on. -/
def HelperConfined (env : BpfEnv) (m : BpfMachine) : Helper → Prop
  | .mapLookupElem => ∀ map ∈ env.mapOf m, map.LookupConfined env (m.registers 2)
  | .mapUpdateElem =>
    ∀ map ∈ env.mapOf m, map.UpdateConfined env (m.registers 2) (m.registers 3) m
  | .mapDeleteElem => ∀ map ∈ env.mapOf m, map.DeleteConfined env (m.registers 2) m
  | .tracePrintk => env.Confines (m.registers 1).toNat (min (m.registers 2).toNat 64)
  | .getCurrentComm =>
    env.isStackPtr (m.registers 1) (min (min (m.registers 2).toNat 512) comm.length) →
      env.Confines (m.registers 1).toNat (min (m.registers 2).toNat 512)
  | .tailCall =>
    ∀ map ∈ env.mapOf m, map.TailCallConfined env (m.registers 2).toUInt32 m
  | _ => True

theorem confined_record {access : Access} : env.Confined (m.record access) ↔
      env.Confined m ∧ env.Confines access.addr access.size := by
  simp [BpfEnv.Confined, BpfMachine.record, or_imp, forall_and]

theorem confines_of_isStackPtr {addr : UInt64} {size : Nat}
    (h : env.isStackPtr addr size) : env.Confines addr.toNat size := by
  have hlt := env.stackBase_lt
  simp only [BpfEnv.isStackPtr] at h
  split_ifs at h with hlo hhi
  have hle := of_decide_eq_true h
  intro k hk
  refine .inl ⟨by omega, by omega⟩

theorem BpfMap.confines {map : BpfMap} (hmap : map ∈ env.maps) {lo size : Nat}
    (h : lo + size ≤ map.dataLen) : env.Confines (map.dataAddr.toNat + lo) size :=
  fun k hk => .inr ⟨map, hmap, by omega, by omega⟩

open Fallible

variable {α : Type}

theorem demands_load_bind {addr size : Nat} {f : Nat → BpfM α} {D : Nat → Prop}
    (hf : ∀ v, Demands env.Confined (f v) fun _ => D v) :
    Demands env.Confined (load addr size >>= f)
      fun m => env.Confines addr size ∧ D (m.valueAt addr size) := by
  intro m
  have hload : (load addr size).run m = (.ok (m.valueAt addr size), m.record ⟨addr, size⟩) := rfl
  rw [run_bind_of_ok hload, hf _ _, confined_record, and_assoc]

theorem demands_store (addr size value : Nat) :
    Demands env.Confined (store addr size value) fun _ => env.Confines addr size := by
  intro m
  exact confined_record

theorem demands_store_bind {addr size value : Nat} {f : Unit → BpfM α}
    {D : Prop} (hf : Demands env.Confined (f ()) fun _ => D) :
    Demands env.Confined (store addr size value >>= f) fun _ => env.Confines addr size ∧ D := by
  intro m
  have hstore : (store addr size value).run m = (.ok (), _) := rfl
  rw [run_bind_of_ok hstore, hf _, ← and_assoc]
  exact and_congr_left fun _ => demands_store addr size value m

theorem demands_setRegister (dst : Nat) (value : UInt64) :
    Demands env.Confined (setRegister dst value) fun _ => True :=
  Demands.modify fun _ => Iff.rfl

section

variable {map : BpfMap} (hmap : map ∈ env.maps)

include hmap

theorem demands_dataRange (lo hi : Nat) :
    Demands env.Confined (map.dataRange lo hi) fun _ => True := by
  unfold BpfMap.dataRange
  split_ifs with h
  · intro m
    have hconf : env.Confines (map.dataAddr.toNat + lo) (hi - lo) :=
      BpfMap.confines hmap (by omega)
    exact confined_record.trans (and_congr_right fun _ => iff_true_intro hconf)
  · exact Demands.fail _

theorem demands_setDataRange (lo hi size value : Nat) :
    Demands env.Confined (map.setDataRange lo hi size value) fun _ => True := by
  unfold BpfMap.setDataRange
  split_ifs with h
  · exact (demands_store _ _ _).congr fun _ =>
      iff_true_intro (BpfMap.confines hmap (by omega))
  · exact Demands.fail _

theorem demands_findKey (key count i : Nat) :
    Demands env.Confined (map.findKey key count i) fun _ => True := by
  induction count generalizing i with
  | zero => exact Demands.pure _
  | succ count ih =>
    unfold BpfMap.findKey
    refine Demands.bind (demands_dataRange hmap _ _) fun used => ?_
    split_ifs
    · refine Demands.bind (demands_dataRange hmap _ _) fun k => ?_
      split_ifs
      · exact Demands.pure _
      · exact ih (i + 1)
    · exact ih (i + 1)

theorem demands_findFree (count i : Nat) :
    Demands env.Confined (map.findFree count i) fun _ => True := by
  induction count generalizing i with
  | zero => exact Demands.pure _
  | succ count ih =>
    unfold BpfMap.findFree
    refine Demands.bind (demands_dataRange hmap _ _) fun used => ?_
    split_ifs
    · exact Demands.pure _
    · exact ih (i + 1)

theorem demands_updateKey (key value : Nat) :
    Demands env.Confined (map.updateKey key value) fun _ => True := by
  unfold BpfMap.updateKey
  refine Demands.bind (demands_findKey hmap _ _ _) fun found => ?_
  cases found with
  | some offset =>
    exact Demands.bind (demands_setDataRange hmap _ _ _ _) fun _ => Demands.pure _
  | none =>
    refine Demands.bind (demands_findFree hmap _ _) fun free => ?_
    cases free with
    | some offset =>
      refine Demands.bind (demands_setDataRange hmap _ _ _ _) fun _ => ?_
      refine Demands.bind (demands_setDataRange hmap _ _ _ _) fun _ => ?_
      exact Demands.bind (demands_setDataRange hmap _ _ _ _) fun _ => Demands.pure _
    | none => exact Demands.pure _

theorem demands_deleteKey (key : Nat) : Demands env.Confined (map.deleteKey key) fun _ => True := by
  unfold BpfMap.deleteKey
  refine Demands.bind (demands_findKey hmap _ _ _) fun found => ?_
  cases found with
  | some offset =>
    exact Demands.bind (demands_setDataRange hmap _ _ _ _) fun _ => Demands.pure _
  | none => exact Demands.pure _

theorem demands_lookup (key : UInt64) :
    Demands env.Confined (map.lookup key) fun _ => map.LookupConfined env key := by
  unfold BpfMap.lookup BpfMap.LookupConfined BpfMap.keyBytes
  split_ifs with harray hhash
  · exact (demands_load_bind (D := fun _ => True) fun _ => Demands.pure _).congr
      fun _ => and_iff_left trivial
  · refine (demands_load_bind (D := fun _ => True) fun key => ?_).congr
      fun _ => and_iff_left trivial
    refine Demands.bind (demands_findKey hmap _ _ _) fun found => ?_
    cases found with
    | some offset => exact Demands.pure _
    | none => exact Demands.pure _
  · refine (Demands.fail _).congr fun _ => (iff_true_intro ?_).symm
    exact fun k hk => absurd hk (Nat.not_lt_zero k)

end

variable (map : BpfMap)

theorem demands_updateIndex (index : UInt32) (value : UInt64) :
    Demands env.Confined (map.updateIndex index value) fun _ =>
      index < map.maxEntries →
        env.Confines value.toNat map.valueSize.toNat ∧ map.EntryConfined env index := by
  unfold BpfMap.updateIndex BpfMap.EntryConfined
  split_ifs with hrange
  · exact (Demands.pure _).congr fun _ =>
      (iff_true_intro fun hlt => absurd hlt (UInt32.not_lt.mpr hrange)).symm
  · have hlt : index < map.maxEntries := UInt32.not_le.mp hrange
    refine (demands_load_bind fun v =>
      Demands.bind (demands_store _ _ v) fun _ => Demands.pure _).congr fun _ => ?_
    simp [hlt]

theorem demands_deleteIndex (index : UInt32) :
    Demands env.Confined (map.deleteIndex index) fun _ => map.EntryConfined env index := by
  unfold BpfMap.deleteIndex BpfMap.EntryConfined
  split_ifs with hrange
  · exact (Demands.pure _).congr fun _ =>
      (iff_true_intro fun hlt => absurd hlt (UInt32.not_lt.mpr hrange)).symm
  · have hlt : index < map.maxEntries := UInt32.not_le.mp hrange
    refine (Demands.bind (demands_store _ _ _) fun _ => Demands.pure _).congr fun _ => ?_
    simp [hlt]

section

variable {map : BpfMap} (hmap : map ∈ env.maps)

include hmap

theorem demands_update (key value : UInt64) :
    Demands env.Confined (map.update key value) (map.UpdateConfined env key value) := by
  unfold BpfMap.update BpfMap.UpdateConfined BpfMap.keyBytes
  split_ifs with harray hhash
  · exact demands_load_bind fun index => demands_updateIndex map (UInt32.ofNat index) value
  · refine (demands_load_bind (D := fun _ => _) fun key =>
      (demands_load_bind (D := fun _ => True) fun value =>
        demands_updateKey hmap key value).congr fun _ => and_iff_left trivial).congr
      fun _ => ?_
    simp [hhash]
  · refine (Demands.fail _).congr fun _ => (iff_true_intro ?_).symm
    exact ⟨fun k hk => absurd hk (Nat.not_lt_zero k), fun h => absurd h hhash⟩

theorem demands_delete (key : UInt64) :
    Demands env.Confined (map.delete key) (map.DeleteConfined env key) := by
  unfold BpfMap.delete BpfMap.DeleteConfined BpfMap.keyBytes
  split_ifs with harray hhash
  · refine (demands_load_bind fun index =>
      demands_deleteIndex map (UInt32.ofNat index)).congr fun m => ?_
    exact and_congr_right fun _ => ⟨fun h _ => h, fun h => h harray⟩
  · refine (demands_load_bind (D := fun _ => True) fun key =>
      demands_deleteKey hmap key).congr fun _ => ?_
    simp [harray]
  · refine (Demands.fail _).congr fun _ => (iff_true_intro ?_).symm
    exact ⟨fun k hk => absurd hk (Nat.not_lt_zero k), fun h => absurd h harray⟩

end

theorem demands_tailCallEntry (index : UInt32) :
    Demands env.Confined (BpfEnv.tailCallEntry map index) (map.TailCallConfined env index) := by
  unfold BpfEnv.tailCallEntry BpfMap.TailCallConfined
  split_ifs with hprog
  · refine (demands_load_bind (D := fun handle => handle ≠ 0 →
      env.Confines handle programSize) fun handle => ?_).congr fun m => ?_
    · split_ifs with hhandle
      · exact (demands_load_bind (D := fun _ => True) fun _ => Demands.fail _).congr
          fun _ => by simp [hhandle]
      · exact (Demands.pure _).congr fun _ => by simp [hhandle]
    · exact ⟨fun h _ => h, fun h => h hprog⟩
  · exact (Demands.pure _).congr fun _ => by simp [hprog]

theorem demands_register_bind {i : Nat} {f : UInt64 → BpfM α}
    {C : UInt64 → BpfMachine → Prop} (hf : ∀ v, Demands env.Confined (f v) (C v)) :
    Demands env.Confined (register i >>= f) fun m => C (m.registers i) m :=
  Demands.gets_bind hf

theorem demands_withMap {absent : UInt64} {f : BpfMap → BpfM UInt64}
    {C : BpfMap → BpfMachine → Prop}
    (hf : ∀ map ∈ env.maps, Demands env.Confined (f map) (C map)) :
    Demands env.Confined (env.withMap absent f) fun m => ∀ map ∈ env.mapOf m, C map m := by
  unfold BpfEnv.withMap BpfEnv.mapOf
  refine demands_register_bind (C := fun id m => ∀ map ∈ env.maps[id.toNat]?, C map m) fun id => ?_
  cases hget : env.maps[id.toNat]? with
  | none => exact (Demands.pure _).congr fun _ => by simp
  | some map =>
    exact (hf map (List.mem_of_getElem? hget)).congr fun _ => by simp

theorem confines_split {addr first size : Nat} (h : env.Confines addr first) (hle : first ≤ size) :
    env.Confines (addr + first) (size - first) ↔ env.Confines addr size := by
  constructor
  · intro hrest k hk
    by_cases hlt : k < first
    · exact h k hlt
    · have hown := hrest (k - first) (by omega)
      rwa [show addr + first + (k - first) = addr + k by omega] at hown
  · intro hall k hk
    rw [Nat.add_assoc]
    exact hall (first + k) (by omega)

theorem demands_writeComm (buf : UInt64) (size : Nat) : Demands env.Confined
      (env.writeComm buf size (min (min size 512) comm.length)) fun _ =>
      env.isStackPtr buf (min (min size 512) comm.length) →
        env.Confines buf.toNat (min size 512) := by
  generalize hlen : min (min size 512) comm.length = len
  unfold BpfEnv.writeComm
  split_ifs with hptr hrest
  · have hfirst := confines_of_isStackPtr hptr
    refine (demands_store_bind (demands_store _ _ _)).congr fun _ => ?_
    rw [and_iff_right hfirst, forall_prop_of_true hptr,
      ← confines_split hfirst (by omega : len ≤ min size 512),
      show min (size - len) (512 - len) = min size 512 - len by omega]
  · have hfirst := confines_of_isStackPtr hptr
    refine (demands_store_bind (Demands.pure _)).congr fun _ => ?_
    rw [and_iff_left trivial, forall_prop_of_true hptr,
      show min size 512 = len by omega]
  · exact (Demands.pure _).congr fun _ => (iff_true_intro fun h => absurd h hptr).symm

theorem demands_getCurrentComm : Demands env.Confined env.getCurrentComm fun m =>
      HelperConfined env m .getCurrentComm := by
  unfold BpfEnv.getCurrentComm HelperConfined
  refine demands_register_bind (C := fun buf m =>
    env.isStackPtr buf (min (min (m.registers 2).toNat 512) comm.length) →
      env.Confines buf.toNat (min (m.registers 2).toNat 512)) fun buf => ?_
  refine demands_register_bind (C := fun size _ =>
    env.isStackPtr buf (min (min size.toNat 512) comm.length) →
      env.Confines buf.toNat (min size.toNat 512)) fun size => ?_
  exact Demands.bind (demands_writeComm buf size.toNat) fun _ => Demands.pure _

theorem demands_copyStack (dst src : UInt64) (size : Nat) :
    Demands env.Confined (env.copyStack dst src size) fun _ => True := by
  unfold BpfEnv.copyStack
  split_ifs with hptr
  · obtain ⟨hdst, hsrc⟩ := Bool.and_eq_true_iff.mp hptr
    refine (demands_load_bind fun v => demands_store _ _ v).congr fun _ => ?_
    exact iff_true_intro ⟨confines_of_isStackPtr hsrc, confines_of_isStackPtr hdst⟩
  · exact Demands.pure _

theorem demands_probeRead : Demands env.Confined env.probeRead fun _ => True := by
  unfold BpfEnv.probeRead
  refine demands_register_bind (C := fun _ _ => True) fun dst => ?_
  refine demands_register_bind (C := fun _ _ => True) fun size => ?_
  refine demands_register_bind (C := fun _ _ => True) fun src => ?_
  exact Demands.bind (demands_copyStack dst src _) fun _ => Demands.pure _

theorem demands_runHelper (helper : Helper) :
    Demands env.Confined (env.runHelper helper) fun m => HelperConfined env m helper := by
  cases helper with
  | mapLookupElem =>
    exact demands_register_bind fun key =>
      demands_withMap fun map hmap => demands_lookup hmap key
  | mapUpdateElem =>
    refine demands_register_bind (C := fun key m => ∀ map ∈ env.mapOf m,
      map.UpdateConfined env key (m.registers 3) m) fun key => ?_
    exact demands_register_bind fun value =>
      demands_withMap fun map hmap => demands_update hmap key value
  | mapDeleteElem =>
    exact demands_register_bind fun key =>
      demands_withMap fun map hmap => demands_delete hmap key
  | ktimeGetNs => exact Demands.bind (Demands.of_neutral fun _ => Iff.rfl) fun _ => Demands.pure _
  | tracePrintk =>
    refine demands_register_bind (C := fun fmt m =>
      env.Confines fmt.toNat (min (m.registers 2).toNat 64)) fun fmt => ?_
    refine demands_register_bind (C := fun size _ =>
      env.Confines fmt.toNat (min size.toNat 64)) fun size => ?_
    exact (demands_load_bind (D := fun _ => True) fun _ => Demands.pure _).congr
      fun _ => and_iff_left trivial
  | getCurrentPidTgid => exact Demands.of_neutral fun _ => Iff.rfl
  | getCurrentComm => exact demands_getCurrentComm
  | probeRead => exact demands_probeRead
  | tailCall =>
    exact demands_register_bind fun index =>
      demands_withMap fun map _ => demands_tailCallEntry map index.toUInt32
  | getSmpProcessorId => exact Demands.of_neutral fun _ => Iff.rfl

def CallConfined (env : BpfEnv) (m : BpfMachine) (insn : BpfInstruction) : Prop :=
  insn.dstReg < 11 ∧ insn.srcReg < 11 → decode insn.code = some .call →
    ∀ helper ∈ helpers.lookup insn.imm, HelperConfined env m helper

theorem demands_callHelper (id : Int32) : Demands env.Confined (env.callHelper id) fun m =>
      ∀ helper ∈ helpers.lookup id, HelperConfined env m helper := by
  unfold BpfEnv.callHelper
  cases hhelper : helpers.lookup id with
  | none => exact (Demands.fail _).congr fun _ => by simp
  | some helper => exact (demands_runHelper helper).congr fun _ => by simp

theorem demands_validate_bind {addr : UInt64} {size : Nat} {f : Unit → BpfM α}
    (hf : env.isStackPtr addr size → Demands env.Confined (f ()) fun _ => True) :
    Demands env.Confined (env.validateMemAccess addr size >>= f) fun _ => True := by
  unfold BpfEnv.validateMemAccess
  split_ifs with hptr
  · exact hf hptr
  · exact Demands.of_neutral fun _ => Iff.rfl

theorem demands_storeChecked (insn : BpfInstruction) (width : Width) (value : BpfMachine → UInt64) :
    Demands env.Confined (storeChecked env insn width value) fun _ => True := by
  unfold storeChecked
  refine Demands.gets_bind (C := fun _ _ => True) fun addr => ?_
  refine demands_validate_bind fun hptr => ?_
  refine Demands.gets_bind (C := fun _ _ => True) fun v => ?_
  refine (demands_store_bind (Demands.pure _)).congr fun _ => ?_
  exact iff_true_intro ⟨confines_of_isStackPtr hptr, trivial⟩

theorem demands_execOpcode (pc : Nat) (insn : BpfInstruction) {opcode : Opcode}
    (h : opcode ≠ .call) :
    Demands env.Confined (execOpcode env program pc insn opcode) fun _ => True := by
  cases opcode with
  | ldImm64 =>
    unfold execOpcode
    cases program[pc + 1]? with
    | none => exact Demands.fail _
    | some next => exact Demands.bind (demands_setRegister _ _) fun _ => Demands.pure _
  | mov operand =>
    refine Demands.gets_bind (C := fun _ _ => True) fun value => ?_
    exact Demands.bind (demands_setRegister _ _) fun _ => Demands.pure _
  | alu op operand =>
    refine Demands.gets_bind (C := fun _ _ => True) fun result => ?_
    cases result with
    | none => exact Demands.fail _
    | some value => exact Demands.bind (demands_setRegister _ _) fun _ => Demands.pure _
  | jump test operand =>
    refine Demands.gets_bind (C := fun _ _ => True) fun taken => ?_
    cases taken with
    | none => exact Demands.pure _
    | some off => exact Demands.pure _
  | ldx width =>
    unfold execOpcode
    refine Demands.gets_bind (C := fun _ _ => True) fun addr => ?_
    refine demands_validate_bind fun hptr => ?_
    refine (demands_load_bind (D := fun _ => True) fun value =>
      Demands.bind (demands_setRegister _ _) fun _ => Demands.pure _).congr fun _ => ?_
    exact iff_true_intro ⟨confines_of_isStackPtr hptr, trivial⟩
  | stx width => exact demands_storeChecked insn width _
  | st width => exact demands_storeChecked insn width _
  | call => exact absurd rfl h
  | ret => exact Demands.gets_bind (C := fun _ _ => True) fun value => Demands.pure _

theorem demands_exec (pc : Nat) (insn : BpfInstruction) :
    Demands env.Confined (exec env program pc insn) fun m => CallConfined env m insn := by
  unfold exec CallConfined
  split_ifs with hregs
  · exact (Demands.fail _).congr fun _ =>
      (iff_true_intro fun hlt => absurd hregs (by omega)).symm
  have hlt : insn.dstReg < 11 ∧ insn.srcReg < 11 := by omega
  cases hdecode : decode insn.code with
  | none => exact (Demands.fail _).congr fun _ => by simp
  | some opcode =>
    by_cases hcall : opcode = .call
    · subst hcall
      refine (Demands.bind (demands_callHelper insn.imm) fun value =>
        Demands.bind (demands_setRegister _ _) fun _ => Demands.pure _).congr fun m => ?_
      exact ⟨fun h _ _ => h, fun h => h hlt rfl⟩
    · exact (demands_execOpcode pc insn hcall).congr fun _ => by simp [hcall]

/-- The machine after an instruction, whether or not the program goes on. -/
def StepResult.machine : StepResult → BpfMachine
  | .next st => st.machine
  | .stop _ m => m

theorem machine_step (st : BpfState) (insn : BpfInstruction) : (step env program st insn).machine =
      ((exec env program st.pc insn).run st.machine).2 := by
  unfold step
  split <;> rename_i hrun <;> rw [hrun] <;> rfl

theorem confined_step_iff (st : BpfState) (insn : BpfInstruction) :
    env.Confined (step env program st insn).machine ↔
      env.Confined st.machine ∧ CallConfined env st.machine insn := by
  rw [machine_step]
  exact demands_exec st.pc insn st.machine

def startMachine (registers : Nat → UInt64) (memory : Nat → UInt8) : BpfMachine where
  registers := registers
  memory := memory
  accesses := []
  readings := 0

theorem confined_of_reached (hcalls : ∀ n st insn, Interprets env program m n st insn →
      CallConfined env st.machine insn)
    (hm : env.Confined m) {n : Nat} {st : BpfState} (h : Reached env program m n st) :
    env.Confined st.machine := by
  induction h with
  | start => exact hm
  | @step n st st' insn hreached hlt hinsn hstep ih =>
    have hnext : env.Confined (step env program st insn).machine :=
      (confined_step_iff st insn).mpr ⟨ih, hcalls n st insn ⟨hreached, hlt, hinsn⟩⟩
    rwa [hstep] at hnext

/-- All memory that a program reads or writes lies in the stack window or in the data of
a map exactly when each helper that it calls meets its condition where it is called. -/
theorem memory_confined_iff (env : BpfEnv) (program : List BpfInstruction)
    (registers : Nat → UInt64) (memory : Nat → UInt8) :
    (∀ n st insn, Interprets env program (startMachine registers memory) n st insn →
        env.Confined (step env program st insn).machine) ↔
      ∀ n st insn, Interprets env program (startMachine registers memory) n st insn →
        CallConfined env st.machine insn := by
  constructor
  · exact fun h n st insn hi => ((confined_step_iff st insn).mp (h n st insn hi)).2
  · intro h n st insn hi
    have hstart : env.Confined (startMachine registers memory) := nofun
    exact (confined_step_iff st insn).mpr ⟨confined_of_reached h hstart hi.reached, h n st insn hi⟩

/-- A program that passes an address of its own to `TRACE_PRINTK`. -/
def printAnywhere : List BpfInstruction :=
  [⟨0xb7, 1, 0, 0⟩, ⟨0xb7, 2, 0, 8⟩, ⟨0x85, 0, 0, 5⟩, ⟨0x95, 0, 0, 0⟩]

/-- The verifier accepts the program, and the helper reads eight bytes from address 0. -/
theorem printAnywhere_not_confined : verify printAnywhere = .ok () ∧
      ∃ n st insn, Interprets exampleEnv printAnywhere
          (startMachine (fun _ => 0) fun _ => 0) n st insn ∧
        ¬ exampleEnv.Confined (step exampleEnv printAnywhere st insn).machine := by
  let m₀ := startMachine (fun _ => 0) fun _ => 0
  have hfirst : step exampleEnv printAnywhere ⟨0, m₀⟩ ⟨0xb7, 1, 0, 0⟩ =
      .next ⟨1, m₀.setRegister 1 0⟩ := rfl
  have hsecond : step exampleEnv printAnywhere ⟨1, m₀.setRegister 1 0⟩ ⟨0xb7, 2, 0, 8⟩ =
      .next ⟨2, (m₀.setRegister 1 0).setRegister 2 8⟩ := rfl
  refine ⟨rfl, 2, ⟨2, (m₀.setRegister 1 0).setRegister 2 8⟩, ⟨0x85, 0, 0, 5⟩,
    ⟨.step (.step .start (by decide) rfl hfirst) (by decide) rfl hsecond, by decide, rfl⟩,
    fun hconfined => ?_⟩
  have hcall := ((confined_step_iff _ _).mp hconfined).2 ⟨by decide, by decide⟩ rfl .tracePrintk rfl
  have howns : exampleEnv.Owns 0 := hcall 0 (by decide)
  rcases howns with ⟨hlo, -⟩ | ⟨map, hmap, -⟩
  · exact absurd hlo (by decide)
  · cases hmap

end Ebpf

end ZiqaKernel
