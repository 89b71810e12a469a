/-
The scheduler of one processor (`process/scheduler.rs`) with the operations that
block and wake processes: futexes (`sync/futex.rs`), wait conditions
(`sync/wait_condition.rs`), the timer (`timer.rs`), signals and exits.  Of the
context that a switch exchanges only the floating-point registers are modelled.
-/
import ZiqaKernel.Timer

namespace ZiqaKernel

inductive ProcessState where
  | created
  | ready
  | running
  | blocked
  | canceled
  | exited (code : Int)
deriving DecidableEq

/-- What the scheduler knows about a process; `F` holds the contents of the
floating-point registers. -/
structure Process (F : Type) where
  state : ProcessState
  fpu : F
  vruntime : Nat
  exitCode : Int
  timedOut : Bool
  joinWaiters : List Nat

/-- A `Waiter` of a futex. -/
structure Waiter where
  pid : Nat
  bitset : UInt32

/-- The state of the scheduler and of what wakes processes.  Entries of the ready
queue are numbered when they are pushed and taken in that order, so the queue is
a list of process ids. -/
structure Kernel (F : Type) where
  tasks : Nat → Option (Process F)
  ready : List Nat
  current : Option Nat
  nextPid : Nat
  ticks : Nat
  fpuRegisters : F
  futexes : Nat → List Waiter
  conditions : Nat → List Nat
  timer : Timer

variable {F : Type}

namespace Kernel

def modify (k : Kernel F) (p : Nat) (f : Process F → Process F) : Kernel F :=
  { k with tasks := fun q => if q = p then (k.tasks q).map f else k.tasks q }

/-- `ReadySet::push`. -/
def push (k : Kernel F) (p : Nat) : Kernel F := { k with ready := k.ready ++ [p] }

def setState (k : Kernel F) (p : Nat) (state : ProcessState) : Kernel F :=
  k.modify p fun proc => { proc with state := state }

/-- `Process::schedule_ready`: ready, and in the queue. -/
def scheduleReady (k : Kernel F) (p : Nat) : Kernel F :=
  (k.setState p .ready).push p

/-- `Process::unblock`: ready, but not in the queue. -/
def unblock (k : Kernel F) (p : Nat) : Kernel F := k.setState p .ready

/-- The part of `schedule` after the switch has been decided that concerns the
process that gives up the processor.  The registers are saved here, after those of
the new process have been restored. -/
def leave (k : Kernel F) (p : Nat) : Kernel F :=
  match k.tasks p with
  | none => k
  | some old =>
    let k' := if old.state = .running then k.scheduleReady p else k
    k'.modify p fun proc => { proc with fpu := k'.fpuRegisters }

/-- The switch of `schedule` to the process `q`. -/
def switchTo (k : Kernel F) (q : Nat) (new : Process F) : Kernel F :=
  let k' := { k.setState q .running with
    current := some q
    fpuRegisters := new.fpu }
  match k.current with
  | none => k'
  | some p => k'.leave p

/-- The loop of `schedule` over the entries of the ready queue.  The result names the
process that is switched to, if any. -/
def scheduleLoop (k : Kernel F) : List Nat → Option Nat × Kernel F
  | [] => (none, { k with ready := [] })
  | q :: rest =>
    match k.tasks q with
    | none => k.scheduleLoop rest
    | some new =>
      if k.current = some q ∧ new.state = .running then
        (none, { k with ready := rest })
      else if new.state = .ready then
        (some q, { k with ready := rest }.switchTo q new)
      else k.scheduleLoop rest

/-- `Scheduler::schedule`. -/
def schedule (k : Kernel F) : Option Nat × Kernel F := k.scheduleLoop k.ready

/-- The loop of `FutexManager::wake` over the waiters of one futex: how many it wakes, and
the waiters that stay. -/
def wakeLoop (k : Kernel F) (count : Nat) (bitset : UInt32) :
    List Waiter → Nat × List Waiter × Kernel F
  | [] => (0, [], k)
  | w :: rest =>
    if count = 0 then (0, w :: rest, k)
    else if w.bitset &&& bitset = 0 then
      let (woken, kept, k') := k.wakeLoop count bitset rest
      (woken, w :: kept, k')
    else if (k.tasks w.pid).isSome then
      let (woken, r) := (k.unblock w.pid).wakeLoop (count - 1) bitset rest
      (woken + 1, r)
    else k.wakeLoop count bitset rest

/-- `FutexManager::wake`, with the number that it returns. -/
def futexWake (k : Kernel F) (addr count : Nat) (bitset : UInt32) : Nat × Kernel F :=
  let (woken, kept, k') := k.wakeLoop count bitset (k.futexes addr)
  (woken, { k' with futexes := fun a => if a = addr then kept else k'.futexes a })

/-- The loop of `requeue` over the waiters that it wakes, with its counter. -/
def requeueWake (count : Nat) (k : Kernel F) : List Waiter → Nat × Kernel F
  | [] => (count, k)
  | w :: rest =>
    if (k.tasks w.pid).isSome then requeueWake (count + 1) (k.unblock w.pid) rest
    else requeueWake count k rest

/-- The loop of `requeue` that appends the waiters that it moves to the other queue. -/
def requeueMove (count : Nat) (queue : List Waiter) : List Waiter → Nat × List Waiter
  | [] => (count, queue)
  | w :: rest => requeueMove (count + 1) (queue ++ [w]) rest

/-- `FutexManager::requeue`, with the number that it returns. -/
def futexRequeue (k : Kernel F) (src dst wakeCount requeueCount : Nat) : Nat × Kernel F :=
  let waiters := k.futexes src
  let (woken, k') := requeueWake 0 k (waiters.take wakeCount)
  let rest := waiters.drop wakeCount
  let k' := { k' with
    futexes := fun a => if a = src then rest.drop requeueCount else k'.futexes a }
  let (count, queue) := requeueMove woken (k'.futexes dst) (rest.take requeueCount)
  (count, { k' with futexes := fun a => if a = dst then queue else k'.futexes a })

/-- `FutexManager::cancel_wait`. -/
def futexCancel (k : Kernel F) (addr pid : Nat) : Kernel F :=
  { k with futexes := fun a =>
      if a = addr then (k.futexes a).filter (·.pid ≠ pid) else k.futexes a }

/-- `WaitCondition::notify`. -/
def notify (k : Kernel F) (cond : Nat) : Kernel F :=
  let k' := (k.conditions cond).foldl unblock k
  { k' with conditions := fun c => if c = cond then [] else k'.conditions c }

/-- `Timer::sleep_ms`. -/
def addSleeper (k : Kernel F) (pid : Nat) (ms : UInt64) : Kernel F :=
  { k with timer := (k.timer.sleepMs pid ms).2 }

/-- What `Timer::wake_sleepers` does to the process of an entry that is due. -/
def wakeSleeper (pid : Nat) (k : Kernel F) : Kernel F :=
  match k.tasks pid with
  | none => k
  | some proc =>
    if proc.state = .blocked then
      (k.modify pid fun proc => { proc with timedOut := true }).scheduleReady pid
    else k

/-- `Timer::tick`. -/
def timerTick (k : Kernel F) : Kernel F :=
  { (k.timer.tick wakeSleeper k).2 with timer := (k.timer.tick wakeSleeper k).1 }

/-- `wake_sleeping_mask`; `pids` are the keys of the process table. -/
def wakeSleepingMask (k : Kernel F) (mask : UInt64) (pids : List Nat) : Kernel F :=
  pids.foldl (fun k p =>
    match k.tasks p with
    | none => k
    | some proc =>
      if proc.state = .blocked ∧ p < 64 ∧ mask &&& (1 <<< UInt64.ofNat p) ≠ 0 then
        k.scheduleReady p
      else k) k

/-- `send_signal`, as far as states are concerned. -/
def sendSignal (k : Kernel F) (target : Nat) (signum : UInt8) : Kernel F :=
  match k.tasks target with
  | none => k
  | some proc =>
    if signum = 9 then
      k.modify target fun proc => { proc with state := .exited (-1), exitCode := -1 }
    else if signum = 19 then k.setState target .blocked
    else if signum = 18 then
      if proc.state = .blocked then k.scheduleReady target else k
    else k

/-- `exit_process` up to the call of `schedule`. -/
def exitProcess (k : Kernel F) (pid : Nat) (code : Int) : Kernel F :=
  match k.tasks pid with
  | none => k
  | some proc =>
    let k' := k.modify pid fun proc =>
      { proc with state := .exited code, exitCode := code, joinWaiters := [] }
    proc.joinWaiters.foldl (fun k w => if (k.tasks w).isSome then k.scheduleReady w else k) k'

/-- `block_current_task` up to the call of `schedule`. -/
def blockCurrent (k : Kernel F) : Kernel F :=
  match k.current with
  | none => k
  | some p => k.modify p fun proc =>
    if proc.state = .running then { proc with state := .blocked } else proc

/-- `spawn`, with the registers that the process starts with. -/
def spawn (k : Kernel F) (fpu : F) : Kernel F :=
  { k with
    tasks := fun q => if q = k.nextPid then some ⟨.ready, fpu, 0, 0, false, []⟩
      else k.tasks q
    ready := k.ready ++ [k.nextPid]
    nextPid := k.nextPid + 1 }

/-- `Scheduler::tick`. -/
def tick (k : Kernel F) : Kernel F :=
  match k.current with
  | none => { k with ticks := k.ticks + 1 }
  | some p => { k with ticks := k.ticks + 1 }.modify p fun proc =>
    { proc with vruntime := proc.vruntime + 1 }

/-- `join_kthread` makes the current process wait for one that has not exited. -/
def joins (k : Kernel F) (pid : Nat) : Bool :=
  match k.current, k.tasks pid with
  | some _, some proc =>
    match proc.state with
    | .exited _ => false
    | _ => true
  | _, _ => false

/-- `join_kthread` up to the call of `schedule`. -/
def join (k : Kernel F) (pid : Nat) : Kernel F :=
  if k.joins pid then
    (k.modify pid fun proc =>
      { proc with joinWaiters := proc.joinWaiters ++ k.current.toList }).blockCurrent
  else k

/-- `FutexManager::wait` and the timeout that `sys_futex` sets, up to the call of
`schedule`, when the futex has the expected value. -/
def futexWait (k : Kernel F) (addr : Nat) (bitset : UInt32) (timeout : Option UInt64) : Kernel F :=
  match k.current with
  | none => k
  | some p =>
    let k' := { k with futexes := fun a =>
        if a = addr then k.futexes a ++ [Waiter.mk p bitset] else k.futexes a }.modify p
      fun proc => { proc with state := .blocked, timedOut := false }
    timeout.elim k' (k'.addSleeper p)

/-- `WaitCondition::wait` up to the call of `schedule`. -/
def wait (k : Kernel F) (cond : Nat) : Kernel F :=
  match k.current with
  | none => k
  | some p =>
    { k with conditions := fun c =>
        if c = cond then k.conditions c ++ [p] else k.conditions c }.setState p .blocked

end Kernel

inductive Op (F : Type) where
  | spawn (fpu : F)
  | compute (fpu : F)
  | tick
  | timerTick
  | schedule
  | block
  | join (pid : Nat)
  | futexWait (addr : Nat) (valueMatches : Bool) (bitset : UInt32) (timeout : Option UInt64)
  | futexWake (addr count : Nat) (bitset : UInt32)
  | futexRequeue (src dst wakeCount requeueCount : Nat)
  | futexCancel (addr pid : Nat)
  | wait (cond : Nat)
  | notify (cond : Nat)
  | sleep (pid : Nat) (ms : UInt64)
  | wakeSleeping (mask : UInt64) (pids : List Nat)
  | signal (target : Nat) (signum : UInt8)
  | exit (pid : Nat) (code : Int)

namespace Op

open Kernel

/-- An operation up to its call of `schedule`, if it makes one. -/
def prepare (k : Kernel F) : Op F → Kernel F
  | spawn fpu => k.spawn fpu
  | compute fpu => { k with fpuRegisters := fpu }
  | tick => k.tick
  | timerTick => k.timerTick
  | schedule => k
  | block => k.blockCurrent
  | join pid => k.join pid
  | futexWait addr valueMatches bitset timeout =>
    if valueMatches then k.futexWait addr bitset timeout else k
  | futexWake addr count bitset => (k.futexWake addr count bitset).2
  | futexRequeue src dst wakeCount requeueCount =>
    (k.futexRequeue src dst wakeCount requeueCount).2
  | futexCancel addr pid => k.futexCancel addr pid
  | wait cond => k.wait cond
  | notify cond => k.notify cond
  | sleep pid ms => (k.setState pid .blocked).addSleeper pid ms
  | wakeSleeping mask pids => k.wakeSleepingMask mask pids
  | signal target signum => k.sendSignal target signum
  | exit pid code => k.exitProcess pid code

/-- Does the operation call `schedule`? -/
def yields (k : Kernel F) : Op F → Bool
  | schedule => true
  | block => k.current.isSome
  | join pid => k.joins pid
  | futexWait _ valueMatches _ _ => valueMatches && k.current.isSome
  | wait _ => k.current.isSome
  | exit pid _ => k.current = some pid && (k.tasks pid).isSome
  | _ => false

/-- An operation with its call of `schedule`; the result names the process that is
switched to, if any. -/
def run (op : Op F) (k : Kernel F) : Option Nat × Kernel F :=
  if op.yields k then (op.prepare k).schedule else (none, op.prepare k)

end Op

/-- The state after `init_boot_process`. -/
def Kernel.boot (fpu : F) : Kernel F where
  tasks := fun p => if p = 1 then some ⟨.running, fpu, 0, 0, false, []⟩ else none
  ready := []
  current := some 1
  nextPid := 2
  ticks := 0
  fpuRegisters := fpu
  futexes := fun _ => []
  conditions := fun _ => []
  timer := .new

namespace Kernel

variable {k : Kernel F} {p : Nat}

/-! The loops of `requeue` -/

theorem tasks_modify (k : Kernel F) (p q : Nat) (f : Process F → Process F) :
    (k.modify p f).tasks q = if q = p then (k.tasks q).map f else k.tasks q := rfl

theorem isSome_unblock (k : Kernel F) (p q : Nat) :
    ((k.unblock p).tasks q).isSome = (k.tasks q).isSome := by
  rw [unblock, setState, tasks_modify]
  split
  · rw [Option.isSome_map]
  · rfl

theorem unblock_of_none (h : k.tasks p = none) : k.unblock p = k := by
  have htasks : (k.unblock p).tasks = k.tasks := by
    funext q
    rw [unblock, setState, tasks_modify]
    split
    · next heq => rw [heq, h, Option.map_none]
    · rfl
  exact congrArg (fun tasks => { k with tasks := tasks }) htasks

/-- Unblocking a process that does not exist does nothing, so the waiters that are woken
are those that are taken out. -/
theorem requeueWake_eq (count : Nat) (k : Kernel F) (waiters : List Waiter) :
    requeueWake count k waiters = (count + waiters.countP (fun w => (k.tasks w.pid).isSome),
      (waiters.map Waiter.pid).foldl unblock k) := by
  induction waiters generalizing count k with
  | nil => rfl
  | cons w rest ih =>
    rw [requeueWake, List.map_cons, List.foldl_cons, List.countP_cons]
    by_cases hsome : (k.tasks w.pid).isSome = true
    · rw [if_pos hsome, ih, if_pos hsome]
      simp only [isSome_unblock]
      rw [Nat.add_right_comm, Nat.add_assoc]
    · rw [if_neg hsome, ih, if_neg hsome, Nat.add_zero,
        unblock_of_none (Option.not_isSome_iff_eq_none.mp hsome)]

theorem requeueMove_eq (count : Nat) (queue waiters : List Waiter) :
    requeueMove count queue waiters = (count + waiters.length, queue ++ waiters) := by
  induction waiters generalizing count queue with
  | nil => rw [requeueMove, List.append_nil, List.length_nil, Nat.add_zero]
  | cons w rest ih =>
    rw [requeueMove, ih, List.append_assoc, List.singleton_append, List.length_cons,
      Nat.add_right_comm, Nat.add_assoc]

theorem futexRequeue_eq (k : Kernel F) (src dst wakeCount requeueCount : Nat) :
    let waiters := k.futexes src
    let woken := waiters.take wakeCount
    let rest := waiters.drop wakeCount
    let k' := (woken.map Waiter.pid).foldl unblock k
    let queues := fun a => if a = src then rest.drop requeueCount else k'.futexes a
    k.futexRequeue src dst wakeCount requeueCount =
      (woken.countP (fun w => (k.tasks w.pid).isSome) + (rest.take requeueCount).length,
        { k' with futexes := fun a =>
            if a = dst then queues dst ++ rest.take requeueCount else queues a }) := by
  rw [futexRequeue]
  simp only [requeueWake_eq, requeueMove_eq, Nat.zero_add]

/-! No ready process is lost -/

/-- Every process that is ready has an entry in `queue`. -/
def Queued (k : Kernel F) (queue : List Nat) : Prop :=
  ∀ p proc, k.tasks p = some proc → proc.state = .ready → p ∈ queue

def NoneLost (k : Kernel F) : Prop := k.Queued k.ready

variable {queue : List Nat}

theorem Queued.modify (h : k.Queued queue) {f : Process F → Process F}
    (hf : ∀ proc, k.tasks p = some proc → (f proc).state = .ready →
      proc.state = .ready ∨ p ∈ queue) : (k.modify p f).Queued queue := by
  intro q proc hq hready
  rw [tasks_modify] at hq
  split at hq
  · next heq =>
    subst heq
    obtain ⟨old, hold, rfl⟩ := Option.map_eq_some_iff.mp hq
    exact (hf old hold hready).elim (h q old hold) id
  · exact h q proc hq hready

theorem Queued.setState (h : k.Queued queue) {state : ProcessState}
    (hstate : state = .ready → p ∈ queue) : (k.setState p state).Queued queue :=
  h.modify fun _ _ hready => Or.inr (hstate hready)

theorem Queued.mono {queue queue' : List Nat} (h : k.Queued queue)
    (hsub : ∀ p ∈ queue, p ∈ queue') : k.Queued queue' :=
  fun p proc hp hready => hsub p (h p proc hp hready)

theorem NoneLost.scheduleReady (h : k.NoneLost) (p : Nat) : (k.scheduleReady p).NoneLost := by
  have hmono : k.Queued (k.ready ++ [p]) := h.mono fun q hq => List.mem_append_left _ hq
  exact hmono.setState fun _ => List.mem_append_right _ List.mem_cons_self

theorem NoneLost.foldl {α : Type} {step : Kernel F → α → Kernel F}
    (hstep : ∀ k a, k.NoneLost → (step k a).NoneLost) (items : List α) (h : k.NoneLost) :
    (items.foldl step k).NoneLost := by
  induction items generalizing k with
  | nil => exact h
  | cons a items ih => exact ih (hstep k a h)

theorem NoneLost.leave (h : k.NoneLost) (p : Nat) : (k.leave p).NoneLost := by
  unfold Kernel.leave
  split
  · exact h
  · dsimp only
    split
    · exact (h.scheduleReady p).modify fun _ _ hready => Or.inl hready
    · exact h.modify fun _ _ hready => Or.inl hready

/-- The loop of `schedule` drops entries of processes that are not ready, and one of
the process that it switches to. -/
theorem scheduleLoop_noneLost (h : k.Queued queue) :
    (k.scheduleLoop queue).2.NoneLost := by
  induction queue with
  | nil => exact h
  | cons q rest ih =>
    have hrest : (∀ proc, k.tasks q = some proc → proc.state ≠ .ready) → k.Queued rest := by
      intro hq p proc hp hready
      rcases List.mem_cons.mp (h p proc hp hready) with rfl | hmem
      · exact absurd hready (hq proc hp)
      · exact hmem
    rw [scheduleLoop]
    split
    · next hnone =>
      refine ih (hrest fun proc hproc => ?_)
      rw [hnone] at hproc
      cases hproc
    · next new hnew =>
      have hother : new.state ≠ .ready → k.Queued rest := by
        intro hstate
        refine hrest fun proc hproc => ?_
        rw [hnew, Option.some.injEq] at hproc
        exact hproc ▸ hstate
      split_ifs with hself hready
      · exact hother (by rw [hself.2]; decide)
      · -- The new process is running, so it needs no entry any more.
        have hrunning : (k.setState q .running).Queued rest := by
          intro p proc hp hstate
          rw [Kernel.setState, tasks_modify] at hp
          split at hp
          · obtain ⟨old, -, rfl⟩ := Option.map_eq_some_iff.mp hp
            cases hstate
          · next hne =>
            exact (List.mem_cons.mp (h p proc hp hstate)).resolve_left hne
        unfold switchTo
        dsimp only
        split
        · exact hrunning
        · refine NoneLost.leave ?_ _
          exact hrunning
      · exact ih (hother hready)

theorem NoneLost.schedule (h : k.NoneLost) : k.schedule.2.NoneLost :=
  scheduleLoop_noneLost h

end Kernel

end ZiqaKernel
