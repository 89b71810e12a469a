/-
The signals of a process: `SignalState` (`process/signal.rs`) with the two calls that set
the mask, `sys_rt_sigprocmask` (`abi/linux/mod.rs`) and `ziqa_sig_setmask`
(`abi/syscall.rs`).
-/
import ZiqaKernel.ProcessRecord
import ZiqaKernel.ZiqaFsBlock

namespace ZiqaKernel

/-- `1 << n`. -/
def signalBit (n : Nat) : UInt32 := .ofBitVec (.twoPow 32 n)

def HasSignal (mask : UInt32) (signum : Nat) : Prop := mask.toBitVec.getLsbD (signum - 1) = true

/-- The bits of `SIGKILL` and `SIGSTOP`. -/
def unblockable : UInt32 := signalBit (9 - 1) ||| signalBit (19 - 1)

namespace SignalState

def send (s : SignalState) (signum : UInt8) : Bool × SignalState :=
  if signum = 0 ∨ signum > 32 then (false, s)
  else (true, { s with pending := s.pending ||| signalBit (signum.toNat - 1) })

/-- `dequeue`; the number 0 means that there is no signal. -/
def dequeue (s : SignalState) : Nat × SignalState :=
  let deliverable := s.pending &&& ~~~s.blocked
  if deliverable = 0 then (0, s)
  else
    let bit := deliverable.toBitVec.ctz.toNat
    (bit + 1, { s with pending := s.pending &&& ~~~signalBit bit })

def setBlocked (s : SignalState) (mask : UInt32) : SignalState :=
  { s with blocked := mask &&& ~~~unblockable }

/-- `sys_rt_sigprocmask`.  Eight bytes at the pointer for the old mask are never filled with
the four that it has.  The new mask is read from a pointer that may be null or bad. -/
def sysRtSigprocmask (s : SignalState) (how : UInt32) (oldset : Bool)
    (set : Option (Option UInt32)) : Except AbiError Int × SignalState :=
  if oldset then (.error (.other "EFAULT"), s)
  else
    match set with
    | none => (.ok 0, s)
    | some none => (.error (.other "EFAULT"), s)
    | some (some newMask) =>
      if how = 0 then (.ok 0, s.setBlocked (s.blocked ||| newMask))
      else if how = 1 then (.ok 0, s.setBlocked (s.blocked &&& ~~~newMask))
      else if how = 2 then (.ok 0, s.setBlocked newMask)
      else (.ok (-22), s)

/-- `ziqa_sig_setmask`. -/
def ziqaSigSetmask (s : SignalState) (arg : UInt64) : SignalState := s.setBlocked arg.toUInt32

end SignalState

/-! Masks -/

section

variable {a b : UInt32} {n signum : Nat}

theorem hasSignal_or : HasSignal (a ||| b) signum ↔ HasSignal a signum ∨ HasSignal b signum := by
  simp [HasSignal]

theorem hasSignal_and_not (h : 0 < signum ∧ signum ≤ 32) :
    HasSignal (a &&& ~~~b) signum ↔ HasSignal a signum ∧ ¬ HasSignal b signum := by
  have hlt : signum - 1 < 32 := by omega
  simp [HasSignal, hlt]

theorem hasSignal_signalBit (h : 0 < signum ∧ signum ≤ 32) :
    HasSignal (signalBit n) signum ↔ n = signum - 1 := by
  rw [HasSignal, signalBit, BitVec.getLsbD_twoPow, Bool.and_eq_true, decide_eq_true_iff,
    decide_eq_true_iff]
  omega

/-- The mask has neither `SIGKILL` nor `SIGSTOP`. -/
def Permitted (mask : UInt32) : Prop := ¬ HasSignal mask 9 ∧ ¬ HasSignal mask 19

theorem permitted_and_not_unblockable (mask : UInt32) : Permitted (mask &&& ~~~unblockable) := by
  rw [Permitted, hasSignal_and_not (by decide), hasSignal_and_not (by decide), unblockable,
    hasSignal_or, hasSignal_or]
  simp [hasSignal_signalBit]

end

/-! One delivery -/

namespace SignalState

variable {s : SignalState}

def Deliverable (s : SignalState) (signum : Nat) : Prop :=
  HasSignal s.pending signum ∧ ¬ HasSignal s.blocked signum

/-- What is delivered is the lowest signal that can be; it is pending no more, and the other
signals are as before. -/
theorem dequeue_lowest (h : s.dequeue.1 ≠ 0) :
    (s.dequeue.1 ≤ 32 ∧ s.Deliverable s.dequeue.1 ∧
      ∀ n, 0 < n → n < s.dequeue.1 → ¬ s.Deliverable n) ∧
    ∀ n, 0 < n ∧ n ≤ 32 →
      (HasSignal s.dequeue.2.pending n ↔ HasSignal s.pending n ∧ n ≠ s.dequeue.1) := by
  have hnonzero : s.pending &&& ~~~s.blocked ≠ 0 := by
    intro hzero
    rw [dequeue, hzero] at h
    exact h rfl
  have hbits : (s.pending &&& ~~~s.blocked).toBitVec ≠ 0#32 := fun hzero =>
    hnonzero (UInt32.toBitVec_inj.mp hzero)
  have hset := BitVec.getLsbD_true_ctz_of_ne_zero hbits
  have hlt := BitVec.lt_of_getLsbD hset
  rw [dequeue, if_neg hnonzero]
  dsimp only
  refine ⟨⟨hlt, ?_, fun n hn hlow => ?_⟩, fun n hn => ?_⟩
  · rw [Deliverable, ← hasSignal_and_not (by omega)]
    exact hset
  · rw [Deliverable, ← hasSignal_and_not (by omega), HasSignal,
      BitVec.getLsbD_false_of_lt_ctz (by omega)]
    exact Bool.false_ne_true
  · rw [hasSignal_and_not hn, hasSignal_signalBit hn]
    refine and_congr_right fun _ => not_congr ?_
    omega

theorem dequeue_none (h : s.dequeue.1 = 0) :
    s.dequeue.2 = s ∧ ∀ n, 0 < n ∧ n ≤ 32 → ¬ s.Deliverable n := by
  have hzero : s.pending &&& ~~~s.blocked = 0 := by
    by_contra hne
    rw [dequeue, if_neg hne] at h
    cases h
  refine ⟨by rw [dequeue, if_pos hzero], fun n hn => ?_⟩
  rw [Deliverable, ← hasSignal_and_not hn, hzero, HasSignal]
  simp

end SignalState

/-! Histories -/

inductive SignalCall where
  | send (signum : UInt8)
  | dequeue
  | rtSigprocmask (how : UInt32) (oldset : Bool) (set : Option (Option UInt32))
  | sigSetmask (arg : UInt64)

/-- The signals of a process, with those that were sent and not delivered since. -/
structure SignalHistory where
  signals : SignalState
  sent : Nat → Bool

namespace SignalHistory

open SignalState

def start : SignalHistory := ⟨.new, fun _ => false⟩

def step : SignalCall → SignalHistory → SignalHistory
  | .send signum, h =>
    { signals := (h.signals.send signum).2
      sent := fun n => ((h.signals.send signum).1 && n = signum.toNat) || h.sent n }
  | .dequeue, h =>
    { signals := h.signals.dequeue.2
      sent := fun n => h.sent n && n ≠ h.signals.dequeue.1 }
  | .rtSigprocmask how oldset set, h =>
    { h with signals := (h.signals.sysRtSigprocmask how oldset set).2 }
  | .sigSetmask arg, h => { h with signals := h.signals.ziqaSigSetmask arg }

/-- What is pending was sent and not delivered since, and the mask is one that is allowed. -/
structure Orderly (h : SignalHistory) : Prop where
  range : ∀ n, h.sent n → 0 < n ∧ n ≤ 32
  pending : ∀ n, 0 < n ∧ n ≤ 32 → (HasSignal h.signals.pending n ↔ h.sent n)
  mask : Permitted h.signals.blocked

theorem Orderly.send {h : SignalHistory} (hh : h.Orderly) (signum : UInt8) :
    (step (.send signum) h).Orderly := by
  by_cases hbad : signum = 0 ∨ signum > 32
  · have hsend : h.signals.send signum = (false, h.signals) := by rw [SignalState.send, if_pos hbad]
    simpa only [step, hsend, Bool.false_and, Bool.false_or] using hh
  · have hsend : h.signals.send signum = (true, { h.signals with
        pending := h.signals.pending ||| signalBit (signum.toNat - 1) }) := by
      rw [SignalState.send, if_neg hbad]
    have hrange : 0 < signum.toNat ∧ signum.toNat ≤ 32 := by
      rw [not_or, ← UInt8.toNat_inj, gt_iff_lt, UInt8.lt_iff_toNat_lt] at hbad
      have hzero : (0 : UInt8).toNat = 0 := rfl
      have hmax : (32 : UInt8).toNat = 32 := rfl
      omega
    rw [step, hsend]
    refine ⟨fun n hn => ?_, fun n hn => ?_, hh.mask⟩
    · simp only [Bool.true_and, Bool.or_eq_true, decide_eq_true_iff] at hn
      rcases hn with rfl | hn
      · exact hrange
      · exact hh.range n hn
    · dsimp only
      rw [hasSignal_or, hh.pending n hn, hasSignal_signalBit hn, Bool.true_and, Bool.or_eq_true,
        decide_eq_true_iff, or_comm]
      refine or_congr_left ?_
      omega

theorem Orderly.dequeue {h : SignalHistory} (hh : h.Orderly) : (step .dequeue h).Orderly := by
  have hblocked : h.signals.dequeue.2.blocked = h.signals.blocked := by
    rw [SignalState.dequeue]
    split <;> rfl
  refine ⟨fun n hn => hh.range n (Bool.and_eq_true_iff.mp hn).1, fun n hn => ?_, ?_⟩
  · change HasSignal h.signals.dequeue.2.pending n ↔ (h.sent n && n ≠ h.signals.dequeue.1) = true
    rw [Bool.and_eq_true, decide_eq_true_iff, ← hh.pending n hn]
    by_cases hnone : h.signals.dequeue.1 = 0
    · rw [(dequeue_none hnone).1, hnone]
      exact (and_iff_left hn.1.ne').symm
    · exact (dequeue_lowest hnone).2 n hn
  · exact (congrArg Permitted hblocked).mpr hh.mask

theorem Orderly.setBlocked {h : SignalHistory} (hh : h.Orderly) (mask : UInt32) :
    Orderly { h with signals := h.signals.setBlocked mask } :=
  ⟨hh.range, hh.pending, permitted_and_not_unblockable mask⟩

theorem Orderly.step {h : SignalHistory} (hh : h.Orderly) (call : SignalCall) :
    (step call h).Orderly := by
  cases call with
  | send signum => exact hh.send signum
  | dequeue => exact hh.dequeue
  | rtSigprocmask how oldset set =>
    change Orderly { h with signals := (h.signals.sysRtSigprocmask how oldset set).2 }
    unfold sysRtSigprocmask
    cases oldset with
    | true => exact hh
    | false =>
      rw [if_neg Bool.false_ne_true]
      split
      · exact hh
      · exact hh
      · split_ifs
        · exact hh.setBlocked _
        · exact hh.setBlocked _
        · exact hh.setBlocked _
        · exact hh
  | sigSetmask arg => exact hh.setBlocked _

/-- Along every sequence of calls `SIGKILL` and `SIGSTOP` are not blocked, and what
`dequeue` would deliver is the lowest signal that was sent, is not blocked and has not been
delivered since. -/
theorem signals_disciplined (calls : List SignalCall) :
    AlongRun step (fun h => Permitted h.signals.blocked ∧
        (∀ n, 0 < n ∧ n ≤ 32 → (HasSignal h.signals.pending n ↔ h.sent n)) ∧
        (h.signals.dequeue.1 = 0 → ∀ n, h.sent n → HasSignal h.signals.blocked n) ∧
        (h.signals.dequeue.1 ≠ 0 → h.sent h.signals.dequeue.1 ∧
          ¬ HasSignal h.signals.blocked h.signals.dequeue.1 ∧
          ∀ n, n < h.signals.dequeue.1 → h.sent n → HasSignal h.signals.blocked n))
      calls start := by
  have hstart : start.Orderly := by
    refine ⟨fun n hn => ?_, fun n hn => ?_, ?_⟩
    · cases hn
    · simp [HasSignal, start, SignalState.new]
    · simp [Permitted, HasSignal, start, SignalState.new]
  refine (alongRun_of_eachStep (P := Orderly) (fun call h hh _ => hh.step call) hstart
    (eachStep_true calls _)).imp fun h hh => ?_
  refine ⟨hh.mask, hh.pending, fun hnone n hsent => ?_, fun hsome => ?_⟩
  · have hn := hh.range n hsent
    by_contra hblocked
    exact (dequeue_none hnone).2 n hn ⟨(hh.pending n hn).mpr hsent, hblocked⟩
  · obtain ⟨⟨hle, hdeliver, hlowest⟩, -⟩ := dequeue_lowest hsome
    refine ⟨(hh.pending _ (by omega)).mp hdeliver.1, hdeliver.2, fun n hlt hsent => ?_⟩
    have hn := hh.range n hsent
    by_contra hblocked
    exact hlowest n hn.1 hlt ⟨(hh.pending n hn).mpr hsent, hblocked⟩

end SignalHistory

end ZiqaKernel
