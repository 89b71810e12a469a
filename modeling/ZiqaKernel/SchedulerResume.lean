/-
What a process finds when its call of `schedule` returns: its state, and the
floating-point registers.
-/
import ZiqaKernel.SchedulerWrites

namespace ZiqaKernel

variable {F : Type}

namespace Kernel

variable {k k' : Kernel F} {p q : Nat}

def stateOf (k : Kernel F) (p : Nat) : Option ProcessState := (k.tasks p).map Process.state

def fpuOf (k : Kernel F) (p : Nat) : Option F := (k.tasks p).map Process.fpu

/-- The first entry of `queue` whose process is ready. -/
def firstReady (k : Kernel F) (queue : List Nat) : Option Nat :=
  queue.find? fun e => k.stateOf e = some .ready

/-- `schedule` has returned at once: it has met the running process, or has found no
process that is ready. -/
structure Returned (k : Kernel F) (queue : List Nat) (r : Option Nat × Kernel F) : Prop where
  result : r.1 = none
  tasks : r.2.tasks = k.tasks
  current : r.2.current = k.current
  nextPid : r.2.nextPid = k.nextPid
  cause : (∃ p, k.current = some p ∧ k.stateOf p = some .running) ∨ k.firstReady queue = none

/-- `schedule` has switched to `q`. -/
structure Switched (k : Kernel F) (queue : List Nat) (r : Option Nat × Kernel F)
    (q : Nat) (new : Process F) : Prop where
  result : ∃ rest, r = (some q, { k with ready := rest }.switchTo q new)
  task : k.tasks q = some new
  next : k.firstReady queue = some q

theorem scheduleLoop_cases (k : Kernel F) (queue : List Nat) :
    k.Returned queue (k.scheduleLoop queue) ∨
      ∃ q new, k.Switched queue (k.scheduleLoop queue) q new := by
  induction queue with
  | nil => exact Or.inl ⟨rfl, rfl, rfl, rfl, Or.inr rfl⟩
  | cons e queue ih =>
    have hskip : k.stateOf e ≠ some .ready → k.Returned (e :: queue) (k.scheduleLoop queue) ∨
          ∃ q new, k.Switched (e :: queue) (k.scheduleLoop queue) q new := by
      intro he
      have hfirst : k.firstReady (e :: queue) = k.firstReady queue :=
        List.find?_cons_of_neg (by simpa using he)
      rcases ih with hreturned | ⟨q, new, hswitched⟩
      · exact Or.inl ⟨hreturned.result, hreturned.tasks, hreturned.current,
          hreturned.nextPid, hreturned.cause.imp_right hfirst.trans⟩
      · exact Or.inr ⟨q, new, hswitched.result, hswitched.task, hfirst.trans hswitched.next⟩
    rw [scheduleLoop]
    split
    · next hnone => exact hskip (by simp [stateOf, hnone])
    · next new hnew =>
      have hstate : k.stateOf e = some new.state := by rw [stateOf, hnew, Option.map_some]
      split_ifs with hself hready
      · exact Or.inl ⟨rfl, rfl, rfl, rfl, Or.inl ⟨e, hself.1, by rw [hstate, hself.2]⟩⟩
      · refine Or.inr ⟨e, new, ⟨queue, rfl⟩, hnew, List.find?_cons_of_pos ?_⟩
        rw [hstate, hready]
        rfl
      · refine hskip ?_
        rw [hstate]
        exact fun h => hready (Option.some.inj h)

/-- What the switch to `q` makes of a process that gives up the processor. -/
def giveUp (fpu : F) (proc : Process F) : Process F :=
  { proc with
    state := if proc.state = .running then .ready else proc.state
    fpu := fpu }

theorem tasks_leave (k : Kernel F) (p r : Nat) : (k.leave p).tasks r =
      if r = p then (k.tasks r).map (giveUp k.fpuRegisters) else k.tasks r := by
  unfold leave
  split
  · next hnone =>
    split
    · next heq => rw [heq, hnone, Option.map_none]
    · rfl
  · next old hold =>
    dsimp only
    by_cases hr : r = p
    · rw [if_pos hr, tasks_modify, if_pos hr]
      subst hr
      split
      · next hrunning =>
        rw [scheduleReady, push, setState, tasks_modify, if_pos rfl, hold]
        simp [giveUp, hrunning]
        rfl
      · next hrunning =>
        rw [hold]
        simp [giveUp, hrunning]
    · rw [if_neg hr, tasks_modify, if_neg hr]
      split
      · rw [scheduleReady, push, setState, tasks_modify, if_neg hr]
      · rfl

theorem leave_frame (k : Kernel F) (p : Nat) :
    (k.leave p).current = k.current ∧ (k.leave p).fpuRegisters = k.fpuRegisters ∧
      (k.leave p).nextPid = k.nextPid := by
  unfold leave
  split
  · exact ⟨rfl, rfl, rfl⟩
  · dsimp only
    split <;> exact ⟨rfl, rfl, rfl⟩

theorem switchTo_frame (k : Kernel F) (q : Nat) (new : Process F) :
    (k.switchTo q new).current = some q ∧ (k.switchTo q new).fpuRegisters = new.fpu ∧
      (k.switchTo q new).nextPid = k.nextPid := by
  unfold switchTo
  dsimp only
  split
  · exact ⟨rfl, rfl, rfl⟩
  · exact leave_frame _ _

theorem tasks_switchTo (k : Kernel F) (q : Nat) (new : Process F) (r : Nat) :
    (k.switchTo q new).tasks r =
      if k.current = some r then ((k.setState q .running).tasks r).map (giveUp new.fpu)
      else (k.setState q .running).tasks r := by
  unfold switchTo
  dsimp only
  split
  · next hnone =>
    rw [hnone]
    rfl
  · next p hp =>
    rw [hp, tasks_leave]
    exact if_congr (by rw [Option.some.injEq, eq_comm]) rfl rfl

/-! The state of the process that goes on -/

/-- The process that goes on after a call of `schedule`: its own call returns. -/
def returnsTo (k : Kernel F) : Option Nat := k.schedule.1.or k.current

theorem stateOf_switchTo (hcurrent : k.current = some p) {new : Process F}
    (hnew : k.tasks q = some new) :
    (k.switchTo q new).stateOf q = some (if q = p then .ready else .running) := by
  have hq : (k.setState q .running).tasks q = some { new with state := .running } := by
    rw [setState, tasks_modify, if_pos rfl, hnew, Option.map_some]
  rw [stateOf, tasks_switchTo, hq]
  by_cases heq : q = p
  · rw [if_pos (heq ▸ hcurrent), if_pos heq]
    rfl
  · rw [if_neg (by simp [hcurrent, Ne.symm heq]), if_neg heq]
    rfl

/-- The process that goes on is running, exactly when the caller of `schedule` is, or
the first entry of the queue that is ready is another process. -/
theorem schedule_returns_running_iff (k : Kernel F) (p : Nat) (hcurrent : k.current = some p) :
    (∀ r, k.returnsTo = some r → k.schedule.2.stateOf r = some .running) ↔
      k.stateOf p = some .running ∨ ∃ q, q ≠ p ∧ k.firstReady k.ready = some q := by
  rcases k.scheduleLoop_cases k.ready with hreturned | ⟨q, new, hswitched⟩
  · -- The caller goes on as it is.
    have hto : k.returnsTo = some p := by
      rw [returnsTo, schedule, hreturned.result, hcurrent, Option.none_or]
    have hstate : k.schedule.2.stateOf p = k.stateOf p := by
      rw [stateOf, schedule, hreturned.tasks, stateOf]
    rw [hto]
    simp only [Option.some.injEq, forall_eq', hstate]
    refine ⟨Or.inl, fun h => h.elim id ?_⟩
    rintro ⟨q, -, hnext⟩
    rcases hreturned.cause with ⟨p', hp', hrunning⟩ | hnone
    · rw [hcurrent, Option.some.injEq] at hp'
      rw [hp', hrunning]
    · rw [hnone] at hnext
      cases hnext
  · obtain ⟨rest, hrun⟩ := hswitched.result
    have hto : k.returnsTo = some q := by
      rw [returnsTo, schedule, hrun, Option.some_or]
    have hstate : k.schedule.2.stateOf q = some (if q = p then .ready else .running) := by
      rw [schedule, hrun]
      exact stateOf_switchTo (k := { k with ready := rest }) hcurrent hswitched.task
    have hready : k.stateOf q = some .ready := by
      simpa using List.find?_some hswitched.next
    rw [hto, hswitched.next]
    simp only [Option.some.injEq, forall_eq', hstate]
    constructor
    · intro h
      refine Or.inr ⟨q, ?_, rfl⟩
      rintro rfl
      rw [if_pos rfl] at h
      cases h
    · rintro (hrunning | ⟨q', hne, rfl⟩)
      · rw [if_neg]
        rintro rfl
        rw [hready] at hrunning
        cases hrunning
      · rw [if_neg hne]

/-- The only process blocks, and `schedule` returns to it. -/
theorem boot_block_returns : (Kernel.boot 0).blockCurrent.schedule.1 = none ∧
      (Kernel.boot 0).blockCurrent.schedule.2.current = some 1 ∧
      (Kernel.boot 0).blockCurrent.schedule.2.stateOf 1 = some .blocked := by
  decide

/-- With a second process that is ready, `schedule` goes on with that one. -/
theorem boot_spawn_block_returns : ((Kernel.boot 0).spawn 0).blockCurrent.returnsTo = some 2 ∧
      ((Kernel.boot 0).spawn 0).blockCurrent.schedule.2.stateOf 2 = some .running := by
  have hreturns : ((Kernel.boot 0).spawn 0).blockCurrent.returnsTo = some 2 := by decide
  exact ⟨hreturns, (schedule_returns_running_iff _ 1 rfl).mpr
    (Or.inr ⟨2, by decide, by decide⟩) 2 hreturns⟩

/-! The floating-point registers of the process that goes on -/

theorem schedule_fpu (h : k.schedule.1 = some q) :
    k.fpuOf q = some k.schedule.2.fpuRegisters ∧ k.schedule.2.current = some q := by
  rcases k.scheduleLoop_cases k.ready with hreturned | ⟨r, new, hswitched⟩
  · rw [schedule, hreturned.result] at h
    cases h
  · obtain ⟨rest, hrun⟩ := hswitched.result
    rw [schedule, hrun] at h ⊢
    obtain rfl := Option.some.inj h
    obtain ⟨hcurrent, hfpu, -⟩ := switchTo_frame { k with ready := rest } r new
    exact ⟨by rw [fpuOf, hswitched.task, hfpu, Option.map_some], hcurrent⟩

theorem schedule_current (h : k.schedule.1 = none) : k.schedule.2.current = k.current := by
  rcases k.scheduleLoop_cases k.ready with hreturned | ⟨r, new, hswitched⟩
  · exact hreturned.current
  · obtain ⟨rest, hrun⟩ := hswitched.result
    rw [schedule, hrun] at h
    cases h

/-- The process that gives up the processor is stored with the registers of the one
that gets it. -/
theorem schedule_fpuOf_current (hcurrent : k.current = some p)
    (hp : (k.tasks p).isSome = true) (h : k.schedule.1 = some q) :
    k.schedule.2.fpuOf p = k.fpuOf q := by
  rcases k.scheduleLoop_cases k.ready with hreturned | ⟨r, new, hswitched⟩
  · rw [schedule, hreturned.result] at h
    cases h
  · obtain ⟨rest, hrun⟩ := hswitched.result
    rw [schedule, hrun] at h ⊢
    obtain rfl := Option.some.inj h
    rw [fpuOf, tasks_switchTo, if_pos hcurrent, Option.map_map, fpuOf, hswitched.task,
      Option.map_some]
    obtain ⟨proc, hproc⟩ := Option.isSome_iff_exists.mp hp
    rw [setState, tasks_modify]
    split <;> simp only [hproc, Option.map_some] <;> rfl

theorem Writes.fpuOf {S : Nat → Prop} {f : Process F → Process F} (h : Writes S f k k')
    (hf : ∀ proc, (f proc).fpu = proc.fpu) (r : Nat) : k'.fpuOf r = k.fpuOf r := by
  by_cases hr : S r
  · rw [Kernel.fpuOf, h.written r hr, Option.map_map]
    exact congrArg (fun g => (k.tasks r).map g) (funext hf)
  · rw [Kernel.fpuOf, h.kept r hr, Kernel.fpuOf]

theorem schedule_fpuOf_other (h : k.current ≠ some p) : k.schedule.2.fpuOf p = k.fpuOf p := by
  rcases k.scheduleLoop_cases k.ready with hreturned | ⟨r, new, hswitched⟩
  · rw [fpuOf, schedule, hreturned.tasks, fpuOf]
  · obtain ⟨rest, hrun⟩ := hswitched.result
    rw [schedule, hrun, fpuOf, tasks_switchTo, if_neg h]
    exact (writes_modify k r (inState .running)).fpuOf (fun _ => rfl) p

theorem schedule_nextPid (k : Kernel F) : k.schedule.2.nextPid = k.nextPid := by
  rcases k.scheduleLoop_cases k.ready with hreturned | ⟨r, new, hswitched⟩
  · exact hreturned.nextPid
  · obtain ⟨rest, hrun⟩ := hswitched.result
    rw [schedule, hrun]
    exact (switchTo_frame _ r new).2.2

/-- From `k` to `k'` no process has been switched to, and the stored registers of the
processes that exist are the same. -/
structure SameContexts (k k' : Kernel F) : Prop where
  current : k'.current = k.current
  nextPid : k.nextPid ≤ k'.nextPid
  fpu : ∀ p < k.nextPid, k'.fpuOf p = k.fpuOf p

theorem SameContexts.refl (k : Kernel F) : SameContexts k k :=
  ⟨rfl, Nat.le_refl _, fun _ _ => rfl⟩

theorem SameContexts.trans {k'' : Kernel F} (h : SameContexts k k')
    (h' : SameContexts k' k'') : SameContexts k k'' :=
  ⟨h'.current.trans h.current, Nat.le_trans h.nextPid h'.nextPid,
    fun p hp => (h'.fpu p (Nat.lt_of_lt_of_le hp h.nextPid)).trans (h.fpu p hp)⟩

theorem Writes.sameContexts {S : Nat → Prop} {f : Process F → Process F} (h : Writes S f k k')
    (hf : ∀ proc, (f proc).fpu = proc.fpu) : SameContexts k k' :=
  ⟨h.current, h.nextPid.ge, fun p _ => h.fpuOf hf p⟩

end Kernel

open Kernel

theorem Op.prepare_sameContexts (op : Op F) (k : Kernel F) : SameContexts k (op.prepare k) := by
  have hblock (k : Kernel F) : SameContexts k k.blockCurrent :=
    (writes_blockCurrent k).sameContexts fun _ => by
      simp [blockRunning, inState, apply_ite Process.fpu]
  cases op with
  | spawn fpu =>
    refine ⟨rfl, Nat.le_succ _, fun p hp => ?_⟩
    rw [fpuOf, fpuOf]
    refine congrArg (Option.map Process.fpu) (if_neg ?_)
    omega
  | compute fpu => exact ⟨rfl, Nat.le_refl _, fun _ _ => rfl⟩
  | tick => exact (writes_tick k).sameContexts fun _ => rfl
  | timerTick =>
    exact (writes_timerTick k).sameContexts fun _ => by simp [timeOut, apply_ite Process.fpu]
  | schedule => exact .refl k
  | block => exact hblock k
  | join pid =>
    rw [prepare, Kernel.join]
    split
    · exact ((writes_modify k pid _).sameContexts fun _ => by rfl).trans (hblock _)
    · exact .refl k
  | futexWait addr valueMatches bitset timeout =>
    rw [prepare]
    split
    · exact (writes_futexWait k addr bitset timeout).sameContexts fun _ => rfl
    · exact .refl k
  | futexWake addr count bitset =>
    exact (writes_futexWake k addr count bitset).sameContexts fun _ => rfl
  | futexRequeue src dst wakeCount requeueCount =>
    exact (writes_futexRequeue k src dst wakeCount requeueCount).sameContexts fun _ => rfl
  | futexCancel addr pid => exact ⟨rfl, Nat.le_refl _, fun _ _ => rfl⟩
  | wait cond => exact (writes_wait k cond).sameContexts fun _ => rfl
  | notify cond => exact (writes_notify k cond).sameContexts fun _ => rfl
  | sleep pid ms => exact (writes_sleep k pid ms).sameContexts fun _ => rfl
  | wakeSleeping mask pids =>
    exact (writes_wakeSleepingMask k mask pids).sameContexts fun _ => by
      simp [wakeBlocked, inState, apply_ite Process.fpu]
  | signal target signum =>
    exact (writes_sendSignal k target signum).sameContexts fun _ => by
      simp [signaled, wakeBlocked, inState, apply_ite Process.fpu]
  | exit pid code =>
    rw [prepare]
    cases hproc : k.tasks pid with
    | none =>
      rw [exitProcess_none hproc]
      exact .refl k
    | some proc =>
      obtain ⟨k₁, hexit, hwake⟩ := exitProcess_writes hproc code
      exact (hexit.sameContexts fun _ => rfl).trans (hwake.sameContexts fun _ => rfl)

/-- The process `p` gets the processor back in the last state: at once, when the switch
is to `p`, or after further operations. -/
inductive Resumed (p : Nat) : Option Nat → Kernel F → Kernel F → Prop where
  | now (k : Kernel F) : Resumed p (some p) k k
  | later {r : Option Nat} {k k' : Kernel F} (op : Op F) (hne : r ≠ some p)
      (hrest : Resumed p (op.run k).1 (op.run k).2 k') : Resumed p r k k'

theorem Resumed.fpu {p : Nat} {r : Option Nat} {k k' : Kernel F} {x : F}
    (h : Resumed p r k k') (hnow : r = some p → k.fpuRegisters = x)
    (haway : r ≠ some p → k.current ≠ some p ∧ k.fpuOf p = some x) (hp : p < k.nextPid) :
    k'.fpuRegisters = x := by
  induction h with
  | now k => exact hnow rfl
  | @later r k k' op hne hrest ih =>
    obtain ⟨hcurrent, hfpu⟩ := haway hne
    have hsame := op.prepare_sameContexts k
    have hfpu' : (op.prepare k).fpuOf p = some x := by rw [hsame.fpu p hp, hfpu]
    have hcurrent' : (op.prepare k).current ≠ some p := by rwa [hsame.current]
    have hp' : p < (op.prepare k).nextPid := Nat.lt_of_lt_of_le hp hsame.nextPid
    rw [Op.run] at hrest ih
    split at hrest
    · next hyields =>
      rw [if_pos hyields] at ih
      refine ih (fun hswitch => ?_) (fun hother => ⟨?_, ?_⟩) ?_
      · have hload := (schedule_fpu hswitch).1
        rw [hfpu', Option.some.injEq] at hload
        exact hload.symm
      · intro hback
        cases hresult : (op.prepare k).schedule.1 with
        | none =>
          rw [schedule_current hresult] at hback
          exact hcurrent' hback
        | some q =>
          rw [(schedule_fpu hresult).2] at hback
          exact hother (hresult.trans hback)
      · rw [schedule_fpuOf_other hcurrent', hfpu']
      · rwa [schedule_nextPid]
    · next hyields =>
      rw [if_neg hyields] at ih
      exact ih (fun hnone => nomatch hnone) (fun _ => ⟨hcurrent', hfpu'⟩) hp'

/-- A process that is switched out while the registers hold `x` finds `x` there when it
gets the processor back, exactly when `x` was stored for the process that it was
switched out for. -/
theorem resumed_fpu_iff (k k' : Kernel F) (p q : Nat) (hcurrent : k.current = some p)
    (htask : (k.tasks p).isSome = true) (hp : p < k.nextPid)
    (hout : k.schedule.1 = some q) (hin : Resumed p (some q) k.schedule.2 k') :
    k'.fpuRegisters = k.fpuRegisters ↔ k.fpuOf q = some k.fpuRegisters := by
  obtain ⟨hload, hcurrent'⟩ := schedule_fpu hout
  have hfpu : k'.fpuRegisters = k.schedule.2.fpuRegisters := by
    refine hin.fpu (fun _ => rfl) (fun hne => ⟨?_, ?_⟩) ?_
    · rwa [hcurrent']
    · rw [schedule_fpuOf_current hcurrent htask hout, hload]
    · rwa [schedule_nextPid]
  rw [hfpu, hload, Option.some.injEq]

/-- The first process has computed `x`, and a second one is ready. -/
def computed (x : Nat) : Kernel Nat := (Op.compute x).prepare ((Kernel.boot 0).spawn 0)

theorem computed_resumed (x : Nat) : Resumed 1 (some 2) (computed x).schedule.2
    (Op.schedule.run (computed x).schedule.2).2 :=
  .later .schedule (by decide) (.now _)

theorem computed_zero_resumed : (Op.schedule.run (computed 0).schedule.2).2.fpuRegisters = 0 :=
  (resumed_fpu_iff (computed 0) _ 1 2 rfl rfl (by decide) rfl (computed_resumed 0)).mpr rfl

/-- The first process finds the registers of the second one. -/
theorem computed_five_lost : Resumed 1 (some 2) (computed 5).schedule.2
        (Op.schedule.run (computed 5).schedule.2).2 ∧
      (computed 5).fpuRegisters = 5 ∧
      (Op.schedule.run (computed 5).schedule.2).2.fpuRegisters = 0 :=
  ⟨computed_resumed 5, rfl, rfl⟩

end ZiqaKernel
