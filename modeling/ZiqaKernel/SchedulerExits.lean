/-
Processes that have exited: which operations leave their state as it is, and which
write over it.
-/
import ZiqaKernel.SchedulerRuns
import ZiqaKernel.SchedulerResume

namespace ZiqaKernel

variable {F : Type}

/-- An `Event` that processes block on (`event.rs`). -/
structure Event where
  signaled : Bool
  waiters : List Nat

structure Machine (F : Type) where
  kernel : Kernel F
  events : Nat → Event

namespace Kernel

/-- The processes of a list become ready and get entries in the queue, as far as they
exist. -/
def readyAll (k : Kernel F) (pids : List Nat) : Kernel F :=
  pids.foldl (fun k w => if (k.tasks w).isSome then k.scheduleReady w else k) k

/-- `cancel_kthread` refuses a process that has exited. -/
def cancels (k : Kernel F) (pid : Nat) : Bool :=
  match k.tasks pid with
  | none => false
  | some proc =>
    match proc.state with
    | .exited _ => false
    | _ => true

/-- `cancel_kthread` up to the call of `schedule`. -/
def cancelKthread (k : Kernel F) (pid : Nat) : Kernel F :=
  if k.cancels pid then (k.setState pid .canceled).exitProcess pid (-1) else k

/-- `waitpid` removes the child that its search has found, if that one has exited. -/
def reap (k : Kernel F) (found : Nat) : Kernel F :=
  match k.stateOf found with
  | some (.exited _) => { k with tasks := fun q => if q = found then none else k.tasks q }
  | _ => k

def modifyCurrent (k : Kernel F) (f : Process F → Process F) : Kernel F :=
  k.current.elim k fun p => k.modify p f

end Kernel

/-- The operations of the scheduler and everything else that writes the state of a
process. -/
inductive LifeStep (F : Type) where
  | op (op : Op F)
  /-- `cancel_kthread` -/
  | cancel (pid : Nat)
  /-- `waitpid`, whose search has stopped at `found` -/
  | waitpid (found : Nat)
  | eventWait (event : Nat)
  | eventSignal (event : Nat)
  | eventReset (event : Nat)
  /-- `Process::exit` on the process that makes the call -/
  | exitCall (code : Int)
  /-- `sys_nanosleep` and `sys_poll` after their call of `schedule` -/
  | sleepReturn
  /-- `SCHED_YIELD` -/
  | yieldCall
  /-- `ziqa_sig_pause` and `ziqa_dev_irq_wait` -/
  | pause
  /-- the command `exec` and `exec_process` -/
  | exec (pid : Nat)

namespace LifeStep

open Kernel

/-- A step up to its call of `schedule`, if it makes one. -/
def prepare (m : Machine F) : LifeStep F → Machine F
  | op o => { m with kernel := o.prepare m.kernel }
  | cancel pid => { m with kernel := m.kernel.cancelKthread pid }
  | waitpid found => { m with kernel := m.kernel.reap found }
  | eventWait e =>
    if (m.events e).signaled then m
    else
      { kernel := m.kernel.blockCurrent
        events := fun e' => if e' = e then
            ⟨false, (m.events e).waiters ++ m.kernel.current.toList⟩
          else m.events e' }
  | eventSignal e =>
    { kernel := m.kernel.readyAll (m.events e).waiters
      events := fun e' => if e' = e then ⟨true, []⟩ else m.events e' }
  | eventReset e =>
    { m with events := fun e' =>
        if e' = e then { m.events e with signaled := false } else m.events e' }
  | exitCall code =>
    { m with kernel := m.kernel.modifyCurrent fun proc =>
        { proc with state := .exited code } }
  | sleepReturn =>
    { m with kernel := m.kernel.modifyCurrent fun proc =>
        { proc with state := .running, timedOut := false } }
  | yieldCall =>
    { m with kernel := m.kernel.modifyCurrent fun proc =>
        if proc.state = .running then { proc with state := .ready } else proc }
  | pause =>
    { m with kernel := m.kernel.modifyCurrent fun proc => { proc with state := .blocked } }
  | exec pid => { m with kernel := m.kernel.setState pid .ready }

/-- Does the step call `schedule`? -/
def yields (m : Machine F) : LifeStep F → Bool
  | op o => o.yields m.kernel
  | cancel pid => m.kernel.cancels pid && m.kernel.current = some pid
  | eventWait e => !(m.events e).signaled && m.kernel.current.isSome
  | _ => false

/-- A step with its call of `schedule`; the result names the process that is switched
to, if any. -/
def run (step : LifeStep F) (m : Machine F) : Option Nat × Machine F :=
  let m' := step.prepare m
  if step.yields m then (m'.kernel.schedule.1, { m' with kernel := m'.kernel.schedule.2 })
  else (none, m')

def Reaps (p : Nat) : LifeStep F → Prop
  | waitpid found => found = p
  | _ => False

/-- The step stores `Exited(code)` for the process. -/
def Ends (m : Machine F) (p : Nat) (code : Int) : LifeStep F → Prop
  | op (.signal target signum) =>
    signum = 9 ∧ p = target ∧ code = -1 ∧ (m.kernel.stateOf p).isSome = true
  | op (.exit pid c) => p = pid ∧ code = c ∧ (m.kernel.stateOf p).isSome = true
  | cancel pid => p = pid ∧ code = -1 ∧ m.kernel.cancels pid = true
  | exitCall c => m.kernel.current = some p ∧ code = c ∧ (m.kernel.stateOf p).isSome = true
  | _ => False

/-- Every process that has exited before the step, or exits in it, is left with its
code, unless it is reaped, and is not switched to. -/
def KeepsExits (step : LifeStep F) (m : Machine F) : Prop :=
  ∀ p c, m.kernel.stateOf p = some (.exited c) ∧ ¬ step.Reaps p ∨ step.Ends m p c →
    (step.run m).1 ≠ some p ∧ (step.run m).2.kernel.stateOf p = some (.exited c)

end LifeStep

variable {S : Nat → Prop} {f : Process F → Process F}

namespace Kernel

variable {k k' k'' : Kernel F} {p : Nat}

def Exited (k : Kernel F) (p : Nat) : Prop := ∃ c, k.stateOf p = some (.exited c)

theorem Writes.stateOf_kept (h : Writes S f k k') (hp : ¬ S p) : k'.stateOf p = k.stateOf p := by
  rw [stateOf, h.kept p hp, stateOf]

theorem Writes.stateOf_eq_none (h : Writes S f k k') (p : Nat) :
    k'.stateOf p = none ↔ k.stateOf p = none := by
  by_cases hp : S p
  · simp [stateOf, h.written p hp]
  · rw [h.stateOf_kept hp]

theorem Writes.exited_iff (h : Writes S f k k') (hp : S p) {c : Int} :
    k'.stateOf p = some (.exited c) ↔
      ∃ proc, k.tasks p = some proc ∧ (f proc).state = .exited c := by
  simp [stateOf, h.written p hp]

/-- From `k` to `k'` no process that has exited changes its state, and none exits. -/
structure Quiet (k k' : Kernel F) : Prop where
  nextPid : k'.nextPid = k.nextPid
  absent : ∀ p, k'.stateOf p = none ↔ k.stateOf p = none
  exits : ∀ p c, k'.stateOf p = some (.exited c) ↔ k.stateOf p = some (.exited c)

theorem Quiet.trans (h : Quiet k k') (h' : Quiet k' k'') : Quiet k k'' where
  nextPid := h'.nextPid.trans h.nextPid
  absent p := (h'.absent p).trans (h.absent p)
  exits p c := (h'.exits p c).trans (h.exits p c)

/-- The state of a process may be replaced, as long as the states of those that have exited
are kept. -/
theorem quiet_of_tasks (hnext : k'.nextPid = k.nextPid)
    (h : ∀ q, k'.tasks q = k.tasks q ∨ ∃ f, k'.tasks q = (k.tasks q).map f ∧
      ∀ proc, k.tasks q = some proc → ∀ c, (f proc).state = .exited c ↔ proc.state = .exited c) :
    Quiet k k' := by
  refine ⟨hnext, fun q => ?_, fun q c => ?_⟩
  · rcases h q with hq | ⟨f, hq, -⟩
    · rw [stateOf, hq, stateOf]
    · simp [stateOf, hq]
  · rcases h q with hq | ⟨f, hq, hf⟩
    · rw [stateOf, hq, stateOf]
    · simp only [stateOf, hq, Option.map_map, Option.map_eq_some_iff, Function.comp_apply]
      exact exists_congr fun proc => and_congr_right fun hproc => hf proc hproc c

theorem Quiet.refl (k : Kernel F) : Quiet k k := quiet_of_tasks rfl fun _ => Or.inl rfl

theorem Writes.quiet (h : Writes S f k k') (hf : ∀ q proc, S q → k.tasks q = some proc →
    ∀ c, (f proc).state = .exited c ↔ proc.state = .exited c) : Quiet k k' := by
  refine quiet_of_tasks h.nextPid fun q => ?_
  by_cases hq : S q
  · exact Or.inr ⟨f, h.written q hq, fun proc => hf q proc hq⟩
  · exact Or.inl (h.kept q hq)

theorem exited_iff_of_replaced {s old new : ProcessState} (hold : ∀ c, old ≠ .exited c)
    (hnew : ∀ c, new ≠ .exited c) (c : Int) :
    (if s = old then new else s) = .exited c ↔ s = .exited c := by
  split
  · next hs => exact iff_of_false (hnew c) (hs ▸ hold c)
  · rfl

/-- One state is replaced by another, and neither is that of a process that has exited. -/
theorem Writes.quiet_of_replaced (h : Writes S f k k') {old new : ProcessState}
    (hf : ∀ proc, (f proc).state = if proc.state = old then new else proc.state)
    (hold : ∀ c, old ≠ .exited c := by simp) (hnew : ∀ c, new ≠ .exited c := by simp) :
    Quiet k k' := by
  refine h.quiet fun _ proc _ _ c => ?_
  rw [hf, exited_iff_of_replaced hold hnew]

theorem quiet_blockCurrent (k : Kernel F) : Quiet k k.blockCurrent :=
  (writes_blockCurrent k).quiet_of_replaced fun _ => apply_ite Process.state ..

theorem writes_modifyCurrent (k : Kernel F) (f : Process F → Process F) :
    Writes (fun p => k.current = some p) f k (k.modifyCurrent f) := by
  cases hcurrent : k.current with
  | none => simpa [modifyCurrent, hcurrent] using writes_noCurrent hcurrent f
  | some p => simpa [modifyCurrent, hcurrent] using (writes_modify k p f).ofCurrent hcurrent

theorem quiet_schedule (k : Kernel F) : Quiet k k.schedule.2 := by
  rcases k.scheduleLoop_cases k.ready with hreturned | ⟨q, new, hswitched⟩
  · exact quiet_of_tasks hreturned.nextPid fun r => Or.inl (congrFun hreturned.tasks r)
  · obtain ⟨rest, hrun⟩ := hswitched.result
    have hready : new.state = .ready := by
      simpa [stateOf, hswitched.task] using List.find?_some hswitched.next
    have hrunning : Quiet k (k.setState q .running) := by
      refine (writes_modify k q (inState .running)).quiet fun r proc hr hproc c => ?_
      obtain rfl : new = proc := Option.some.inj (hswitched.task.symm.trans (hr ▸ hproc))
      rw [hready]
      exact iff_of_false (by simp [inState]) (by simp)
    rw [schedule, hrun]
    refine hrunning.trans (quiet_of_tasks (switchTo_frame _ q new).2.2 fun r => ?_)
    rw [tasks_switchTo]
    split
    · exact Or.inr ⟨_, rfl, fun _ _ c => exited_iff_of_replaced (by simp) (by simp) c⟩
    · exact Or.inl rfl

theorem schedule_ne_exited {c : Int} (h : k.stateOf p = some (.exited c)) :
    k.schedule.1 ≠ some p := by
  intro hresult
  rcases k.scheduleLoop_cases k.ready with hreturned | ⟨q, new, hswitched⟩
  · rw [schedule, hreturned.result] at hresult
    cases hresult
  · obtain ⟨rest, hrun⟩ := hswitched.result
    rw [schedule, hrun] at hresult
    obtain rfl := Option.some.inj hresult
    have hready : k.stateOf q = some .ready := by
      simpa using List.find?_some hswitched.next
    rw [hready] at h
    cases h

/-- A process can be made to exit: if it has done so already, then with the same code,
and neither it nor any other process that has exited waits for it. -/
def ExitsCleanly (k : Kernel F) (pid : Nat) (code : Int) : Prop :=
  ∀ proc, k.tasks pid = some proc → (∀ c, proc.state = .exited c → c = code) ∧
    ∀ w ∈ proc.joinWaiters, w ≠ pid ∧ ¬ k.Exited w

theorem exitProcess_keeps_iff (k : Kernel F) (pid : Nat) (code : Int) :
    (∀ p c, k.stateOf p = some (.exited c) ∨ p = pid ∧ c = code ∧ (k.stateOf p).isSome = true →
      (k.exitProcess pid code).stateOf p = some (.exited c)) ↔ k.ExitsCleanly pid code := by
  rcases Option.eq_none_or_eq_some (k.tasks pid) with hnone | ⟨proc, hproc⟩
  · rw [exitProcess_none hnone]
    refine iff_of_true ?_ fun proc hproc => ?_
    · rintro p c (hexited | ⟨rfl, -, hsome⟩)
      · exact hexited
      · rw [stateOf, hnone] at hsome
        cases hsome
    · rw [hnone] at hproc
      cases hproc
  · obtain ⟨k₁, hexit, hwake⟩ := exitProcess_writes hproc code
    have hstate : k.stateOf pid = some proc.state := by rw [stateOf, hproc, Option.map_some]
    have hwoken : ∀ w ∈ proc.joinWaiters, ∀ c,
        (k.exitProcess pid code).stateOf w ≠ some (.exited c) := by
      intro w hw c hc
      obtain ⟨_, -, hready⟩ := (hwake.exited_iff hw).mp hc
      cases hready
    constructor
    · intro h proc' hproc'
      obtain rfl := Option.some.inj (hproc.symm.trans hproc')
      have hself := h pid code (Or.inr ⟨rfl, rfl, by rw [hstate]; rfl⟩)
      refine ⟨fun c hc => ?_, fun w hw => ⟨?_, ?_⟩⟩
      · have hkept := h pid c (Or.inl (by rw [hstate, hc]))
        rw [hself, Option.some.injEq, ProcessState.exited.injEq] at hkept
        exact hkept.symm
      · rintro rfl
        exact hwoken w hw code hself
      · rintro ⟨c, hc⟩
        exact hwoken w hw c (h w c (Or.inl hc))
    · intro hclean p c hcase
      obtain ⟨hcode, hwaiters⟩ := hclean proc hproc
      have hnot : p ∉ proc.joinWaiters := by
        intro hp
        obtain ⟨hne, hlive⟩ := hwaiters p hp
        rcases hcase with hexited | ⟨heq, -, -⟩
        · exact hlive ⟨c, hexited⟩
        · exact hne heq
      rw [hwake.stateOf_kept hnot]
      by_cases hp : p = pid
      · rw [hexit.exited_iff hp, hp]
        refine ⟨proc, hproc, ?_⟩
        rcases hcase with hexited | ⟨-, rfl, -⟩
        · rw [hp, hstate, Option.some.injEq] at hexited
          rw [hcode c hexited]
        · rfl
      · rw [hexit.stateOf_kept hp]
        exact hcase.resolve_right fun h => hp h.1

/-- Process ids from `nextPid` on are not in use. -/
def Fresh (k : Kernel F) : Prop := ∀ p, k.nextPid ≤ p → k.stateOf p = none

theorem Fresh.writes (hfresh : k.Fresh) (h : Writes S f k k') : k'.Fresh :=
  fun p hp => (h.stateOf_eq_none p).mpr (hfresh p (h.nextPid ▸ hp))

theorem Fresh.quiet (hfresh : k.Fresh) (h : Quiet k k') : k'.Fresh :=
  fun p hp => (h.absent p).mpr (hfresh p (h.nextPid ▸ hp))

theorem Fresh.exitProcess (hfresh : k.Fresh) (pid : Nat) (code : Int) :
    (k.exitProcess pid code).Fresh := by
  rcases Option.eq_none_or_eq_some (k.tasks pid) with hnone | ⟨proc, hproc⟩
  · rwa [exitProcess_none hnone]
  · obtain ⟨k₁, hexit, hwake⟩ := exitProcess_writes hproc code
    exact (hfresh.writes hexit).writes hwake

end Kernel

namespace LifeStep

open Kernel

variable {m : Machine F} {step : LifeStep F}

/-- The step leaves alone the states of processes that have exited: it does not wake
one, does not send it a signal that kills or stops it, does not make it exit with another
code, and is not a call by such a process that changes its own state. -/
def Respects (m : Machine F) : LifeStep F → Prop
  | op (.futexWait _ valueMatches _ _) =>
    valueMatches = true → ∀ p, m.kernel.current = some p → ¬ m.kernel.Exited p
  | op (.futexWake addr count bitset) =>
    ∀ p ∈ m.kernel.wakenBy count bitset (m.kernel.futexes addr), ¬ m.kernel.Exited p
  | op (.futexRequeue src _ wakeCount _) =>
    ∀ p ∈ ((m.kernel.futexes src).take wakeCount).map Waiter.pid, ¬ m.kernel.Exited p
  | op (.wait _) => ∀ p, m.kernel.current = some p → ¬ m.kernel.Exited p
  | op (.notify cond) => ∀ p ∈ m.kernel.conditions cond, ¬ m.kernel.Exited p
  | op (.sleep pid _) => ¬ m.kernel.Exited pid
  | op (.signal target signum) =>
    (signum = 9 → ∀ c, m.kernel.stateOf target = some (.exited c) → c = -1) ∧
      (signum = 19 → ¬ m.kernel.Exited target)
  | op (.exit pid code) => m.kernel.ExitsCleanly pid code
  | cancel pid => m.kernel.cancels pid = true → m.kernel.ExitsCleanly pid (-1)
  | eventSignal e => ∀ p ∈ (m.events e).waiters, ¬ m.kernel.Exited p
  | exitCall code => ∀ p c, m.kernel.current = some p →
      m.kernel.stateOf p = some (.exited c) → c = code
  | sleepReturn => ∀ p, m.kernel.current = some p → ¬ m.kernel.Exited p
  | pause => ∀ p, m.kernel.current = some p → ¬ m.kernel.Exited p
  | exec pid => ¬ m.kernel.Exited pid
  | _ => True

theorem keepsExits_iff (step : LifeStep F) (m : Machine F) : step.KeepsExits m ↔
      ∀ p c, m.kernel.stateOf p = some (.exited c) ∧ ¬ step.Reaps p ∨ step.Ends m p c →
        (step.prepare m).kernel.stateOf p = some (.exited c) := by
  refine forall₃_congr fun p c _ => ?_
  unfold run
  dsimp only
  split
  · have hquiet := (quiet_schedule (step.prepare m).kernel).exits p c
    exact ⟨fun h => hquiet.mp h.2, fun h => ⟨schedule_ne_exited h, hquiet.mpr h⟩⟩
  · exact ⟨fun h => h.2, fun h => ⟨by simp, h⟩⟩

theorem fresh_run (h : (step.prepare m).kernel.Fresh) : (step.run m).2.kernel.Fresh := by
  unfold run
  dsimp only
  split
  · exact h.quiet (quiet_schedule _)
  · exact h

/-- A step that uses up no process id twice, and for which the condition is exact. -/
def Exact (step : LifeStep F) (m : Machine F) : Prop :=
  (step.prepare m).kernel.Fresh ∧ (step.KeepsExits m ↔ step.Respects m)

section

variable (hfresh : m.kernel.Fresh)
include hfresh

theorem exact_of_quiet (h : Quiet m.kernel (step.prepare m).kernel)
    (hends : ∀ p c, ¬ step.Ends m p c := by exact fun _ _ => id)
    (hrespects : step.Respects m := by trivial) : step.Exact m := by
  refine ⟨hfresh.quiet h, (keepsExits_iff step m).trans (iff_of_true ?_ hrespects)⟩
  rintro p c (⟨hc, -⟩ | hend)
  · exact (h.exits p c).mpr hc
  · exact absurd hend (hends p c)

/-- The processes are given a state that is not that of one that has exited. -/
theorem exact_of_writes (h : Writes S f m.kernel (step.prepare m).kernel)
    (hf : ∀ proc c, (f proc).state ≠ .exited c)
    (hiff : (∀ p, S p → ¬ m.kernel.Exited p) ↔ step.Respects m)
    (hends : ∀ p c, ¬ step.Ends m p c := by exact fun _ _ => id)
    (hreap : ∀ p, ¬ step.Reaps p := by exact fun _ => id) : step.Exact m := by
  refine ⟨hfresh.writes h, (keepsExits_iff step m).trans (Iff.trans ?_ hiff)⟩
  constructor
  · rintro hkeeps p hp ⟨c, hc⟩
    obtain ⟨proc, -, hexited⟩ := (h.exited_iff hp).mp (hkeeps p c (Or.inl ⟨hc, hreap p⟩))
    exact hf proc c hexited
  · rintro hlive p c (⟨hc, -⟩ | hend)
    · rwa [h.stateOf_kept fun hp => hlive p hp ⟨c, hc⟩]
    · exact absurd hend (hends p c)

theorem exact_of_exited {code : Int} (h : Writes S f m.kernel (step.prepare m).kernel)
    (hf : ∀ proc, (f proc).state = .exited code)
    (hends : ∀ p c, step.Ends m p c ↔ S p ∧ c = code ∧ (m.kernel.stateOf p).isSome = true)
    (hiff : (∀ p c, S p → m.kernel.stateOf p = some (.exited c) → c = code) ↔
      step.Respects m) (hreap : ∀ p, ¬ step.Reaps p := by exact fun _ => id) :
    step.Exact m := by
  have hset {p : Nat} (hp : S p) (hsome : (m.kernel.stateOf p).isSome = true) :
      (step.prepare m).kernel.stateOf p = some (.exited code) := by
    obtain ⟨proc, hproc⟩ := Option.isSome_iff_exists.mp (Option.isSome_map.symm.trans hsome)
    exact (h.exited_iff hp).mpr ⟨proc, hproc, hf proc⟩
  refine ⟨hfresh.writes h, (keepsExits_iff step m).trans (Iff.trans ?_ hiff)⟩
  constructor
  · intro hkeeps p c hp hc
    have hkept := hkeeps p c (Or.inl ⟨hc, hreap p⟩)
    rw [hset hp (by rw [hc]; rfl), Option.some.injEq, ProcessState.exited.injEq] at hkept
    exact hkept.symm
  · rintro hsame p c (⟨hc, -⟩ | hend)
    · by_cases hp : S p
      · rw [hsame p c hp hc, hset hp (by rw [hc]; rfl)]
      · rwa [h.stateOf_kept hp]
    · obtain ⟨hp, rfl, hsome⟩ := (hends p c).mp hend
      exact hset hp hsome

theorem exact_of_same (h : (step.prepare m).kernel = m.kernel)
    (hends : ∀ p c, ¬ step.Ends m p c := by exact fun _ _ => id)
    (hrespects : step.Respects m := by trivial) : step.Exact m := by
  refine exact_of_quiet hfresh ?_ hends hrespects
  rw [h]
  exact .refl _

theorem exact_spawn (fpu : F) : (op (.spawn fpu)).Exact m := by
  have hother : ∀ p, p ≠ m.kernel.nextPid →
      (m.kernel.spawn fpu).stateOf p = m.kernel.stateOf p := fun p hp => by
    exact congrArg (Option.map Process.state) (if_neg hp)
  constructor
  · intro p hp
    have hle : m.kernel.nextPid + 1 ≤ p := hp
    have hne : p ≠ m.kernel.nextPid := by omega
    exact (hother p hne).trans (hfresh p (by omega))
  · rw [keepsExits_iff]
    refine iff_of_true ?_ trivial
    rintro p c (⟨hc, -⟩ | hend)
    · refine (hother p ?_).trans hc
      rintro rfl
      rw [hfresh _ (Nat.le_refl _)] at hc
      cases hc
    · exact hend.elim

theorem exact_waitpid (found : Nat) : (waitpid found).Exact m := by
  have hother : ∀ p, p ≠ found → (m.kernel.reap found).stateOf p = m.kernel.stateOf p := by
    intro p hp
    rw [reap]
    split
    · exact congrArg (Option.map Process.state) (if_neg hp)
    · rfl
  have hgone : m.kernel.stateOf found = none → (m.kernel.reap found).stateOf found = none := by
    intro hnone
    rw [reap, hnone]
    exact hnone
  have hnext : (m.kernel.reap found).nextPid = m.kernel.nextPid := by
    rw [reap]
    split
    · rfl
    · rfl
  constructor
  · intro p hp
    have hle : m.kernel.nextPid ≤ p := by
      rw [← hnext]
      exact hp
    by_cases heq : p = found
    · rw [heq] at hle ⊢
      exact hgone (hfresh found hle)
    · exact (hother p heq).trans (hfresh p hle)
  · rw [keepsExits_iff]
    refine iff_of_true ?_ trivial
    rintro p c (⟨hc, hne⟩ | hend)
    · exact (hother p fun heq => hne heq.symm).trans hc
    · exact hend.elim

theorem exact_signal (target : Nat) (signum : UInt8) :
    (op (.signal target signum)).Exact m := by
  have hwrites := writes_sendSignal m.kernel target signum
  unfold signaled at hwrites
  split_ifs at hwrites with hkill hstop hcont
  · refine exact_of_exited hfresh hwrites (fun _ => rfl) (fun p c => ?_) ?_
    · exact ⟨fun h => h.2, fun h => ⟨hkill, h⟩⟩
    · refine ⟨fun h => ⟨fun _ c => h target c rfl, fun hstop => ?_⟩, fun h p c hp hc => ?_⟩
      · rw [hkill] at hstop
        exact absurd hstop (by decide)
      · exact h.1 hkill c (hp ▸ hc)
  · refine exact_of_writes hfresh hwrites (fun _ c hc => by cases hc) ?_ fun p c h => hkill h.1
    refine ⟨fun h => ⟨fun hk => absurd hk hkill, fun _ => h target rfl⟩, fun h p hp => ?_⟩
    rw [show p = target from hp]
    exact h.2 hstop
  all_goals
    have hrespects : (op (.signal target signum)).Respects m :=
      ⟨fun h => absurd h hkill, fun h => absurd h hstop⟩
    refine exact_of_quiet hfresh ?_ (fun p c h => hkill h.1) hrespects
  · exact hwrites.quiet_of_replaced fun _ => apply_ite Process.state ..
  · exact hwrites.quiet fun _ _ _ _ _ => Iff.rfl

theorem exact_exit (pid : Nat) (code : Int) :
    (op (.exit pid code)).Exact m := by
  refine ⟨hfresh.exitProcess pid code, ?_⟩
  rw [keepsExits_iff]
  refine Iff.trans (forall₂_congr fun p c => ?_) (exitProcess_keeps_iff m.kernel pid code)
  exact imp_congr_left (or_congr_left ⟨fun h => h.1, fun h => ⟨h, id⟩⟩)

end

theorem cancels_eq_false_of_exited {k : Kernel F} {pid : Nat} {c : Int}
    (h : k.stateOf pid = some (.exited c)) : k.cancels pid = false := by
  obtain ⟨proc, hproc, hstate⟩ := Option.map_eq_some_iff.mp h
  rw [cancels, hproc]
  dsimp only
  rw [hstate]

theorem isSome_of_cancels {k : Kernel F} {pid : Nat} (h : k.cancels pid = true) :
    ∃ proc, k.tasks pid = some proc := by
  rw [cancels] at h
  split at h
  · cases h
  · next proc hproc => exact ⟨proc, hproc⟩

theorem exitsCleanly_canceled {k : Kernel F} {pid : Nat} (hlive : ¬ k.Exited pid)
    (hmark : Quiet k (k.setState pid .canceled)) (code : Int) :
    (k.setState pid .canceled).ExitsCleanly pid code ↔ k.ExitsCleanly pid code := by
  have hexited : ∀ w, (k.setState pid .canceled).Exited w ↔ k.Exited w :=
    fun w => exists_congr fun c => hmark.exits w c
  have htask : (k.setState pid .canceled).tasks pid =
      (k.tasks pid).map fun proc => { proc with state := .canceled } := by
    rw [setState, tasks_modify, if_pos rfl]
  constructor
  · intro h proc hproc
    obtain ⟨-, hwaiters⟩ := h { proc with state := .canceled } (by rw [htask, hproc]; rfl)
    refine ⟨fun c hc => ?_, fun w hw => ⟨(hwaiters w hw).1, ?_⟩⟩
    · exact absurd ⟨c, by rw [stateOf, hproc, Option.map_some, hc]⟩ hlive
    · rw [← hexited]
      exact (hwaiters w hw).2
  · intro h proc' hproc'
    rw [htask] at hproc'
    obtain ⟨proc, hproc, rfl⟩ := Option.map_eq_some_iff.mp hproc'
    refine ⟨fun c hc => ?_, fun w hw => ?_⟩
    · cases hc
    · rw [hexited]
      exact (h proc hproc).2 w hw

theorem exact_cancel (hfresh : m.kernel.Fresh) (pid : Nat) : (cancel pid).Exact m := by
  by_cases hcancels : m.kernel.cancels pid = true
  · have hlive : ¬ m.kernel.Exited pid := by
      rintro ⟨c, hc⟩
      rw [cancels_eq_false_of_exited hc] at hcancels
      cases hcancels
    -- The first write of `cancel_kthread` concerns a process that has not exited.
    have hmark : Quiet m.kernel (m.kernel.setState pid .canceled) := by
      refine (writes_modify m.kernel pid (inState .canceled)).quiet fun p proc hp hproc c => ?_
      refine iff_of_false (by simp [inState]) fun hc => hlive ⟨c, ?_⟩
      rw [← show p = pid from hp, stateOf, hproc, Option.map_some, hc]
    have hprepare : ((cancel pid).prepare m).kernel =
        (m.kernel.setState pid .canceled).exitProcess pid (-1) := if_pos hcancels
    have hsome : ((m.kernel.setState pid .canceled).stateOf pid).isSome = true := by
      obtain ⟨proc, hproc⟩ := isSome_of_cancels hcancels
      rw [Option.isSome_iff_ne_none, ne_eq, hmark.absent, stateOf, hproc]
      simp
    constructor
    · rw [hprepare]
      exact (hfresh.quiet hmark).exitProcess pid (-1)
    · rw [keepsExits_iff, hprepare]
      have hkeeps := (exitProcess_keeps_iff _ pid (-1)).trans
        (exitsCleanly_canceled hlive hmark (-1))
      have hrespects : m.kernel.ExitsCleanly pid (-1) ↔ (cancel pid).Respects m :=
        ⟨fun h _ => h, fun h => h hcancels⟩
      refine Iff.trans (forall₂_congr fun p c => ?_) (hkeeps.trans hrespects)
      refine imp_congr_left (or_congr ⟨fun h => ?_, fun h => ⟨?_, id⟩⟩ ⟨?_, ?_⟩)
      · exact (hmark.exits p c).mpr h.1
      · exact (hmark.exits p c).mp h
      · rintro ⟨rfl, rfl, -⟩
        exact ⟨rfl, rfl, hsome⟩
      · rintro ⟨rfl, rfl, -⟩
        exact ⟨rfl, rfl, hcancels⟩
  · have hprepare : ((cancel pid).prepare m).kernel = m.kernel := if_neg hcancels
    exact exact_of_same hfresh hprepare (fun p c h => hcancels h.2.2) fun h => absurd h hcancels

theorem exact_op (hfresh : m.kernel.Fresh) (o : Op F) : (op o).Exact m := by
  cases o with
  | spawn fpu => exact exact_spawn hfresh fpu
  | signal target signum => exact exact_signal hfresh target signum
  | exit pid code => exact exact_exit hfresh pid code
  | compute fpu => exact exact_of_quiet hfresh (quiet_of_tasks rfl fun _ => Or.inl rfl)
  | tick => exact exact_of_quiet hfresh ((writes_tick _).quiet fun _ _ _ _ _ => Iff.rfl)
  | timerTick =>
    exact exact_of_quiet hfresh
      ((writes_timerTick _).quiet_of_replaced fun _ => apply_ite Process.state ..)
  | schedule => exact exact_of_same hfresh rfl
  | block => exact exact_of_quiet hfresh (quiet_blockCurrent _)
  | join pid =>
    refine exact_of_quiet hfresh ?_
    change Quiet m.kernel (m.kernel.join pid)
    unfold Kernel.join
    split
    · exact ((writes_modify _ pid _).quiet fun _ _ _ _ _ => by rfl).trans (quiet_blockCurrent _)
    · exact .refl _
  | futexWait addr valueMatches bitset timeout =>
    cases valueMatches with
    | false => exact exact_of_same hfresh rfl (fun _ _ => id) fun h => by cases h
    | true =>
      refine exact_of_writes hfresh (writes_futexWait m.kernel addr bitset timeout) (by simp) ?_
      exact ⟨fun h _ => h, fun h => h rfl⟩
  | futexWake addr count bitset =>
    exact exact_of_writes hfresh (writes_futexWake _ addr count bitset) (by simp [inState]) Iff.rfl
  | futexRequeue src dst wakeCount requeueCount =>
    exact exact_of_writes hfresh (writes_futexRequeue _ src dst wakeCount requeueCount)
      (by simp [inState]) Iff.rfl
  | futexCancel addr pid =>
    exact exact_of_quiet hfresh (quiet_of_tasks rfl fun _ => Or.inl rfl)
  | wait cond => exact exact_of_writes hfresh (writes_wait _ cond) (by simp [inState]) Iff.rfl
  | notify cond => exact exact_of_writes hfresh (writes_notify _ cond) (by simp [inState]) Iff.rfl
  | sleep pid ms =>
    exact exact_of_writes hfresh (writes_sleep _ pid ms) (by simp [inState]) forall_eq
  | wakeSleeping mask pids =>
    exact exact_of_quiet hfresh
      ((writes_wakeSleepingMask _ mask pids).quiet_of_replaced fun _ => apply_ite Process.state ..)

theorem exact_step (hfresh : m.kernel.Fresh) (step : LifeStep F) : step.Exact m := by
  cases step with
  | op o => exact exact_op hfresh o
  | cancel pid => exact exact_cancel hfresh pid
  | waitpid found => exact exact_waitpid hfresh found
  | eventWait e =>
    refine exact_of_quiet hfresh ?_
    rw [prepare]
    split
    · exact .refl _
    · exact quiet_blockCurrent _
  | eventSignal e =>
    exact exact_of_writes hfresh (writes_readyAll _ _) (by simp [inState]) Iff.rfl
  | eventReset e => exact exact_of_same hfresh rfl
  | exitCall code =>
    exact exact_of_exited hfresh (writes_modifyCurrent _ _) (fun _ => rfl) (fun _ _ => Iff.rfl)
      Iff.rfl
  | sleepReturn =>
    exact exact_of_writes hfresh (writes_modifyCurrent _ _) (by simp) Iff.rfl
  | yieldCall =>
    exact exact_of_quiet hfresh
      ((writes_modifyCurrent _ _).quiet_of_replaced fun _ => apply_ite Process.state ..)
  | pause => exact exact_of_writes hfresh (writes_modifyCurrent _ _) (by simp) Iff.rfl
  | exec pid =>
    exact exact_of_writes hfresh (writes_modify _ pid (inState .ready)) (by simp [inState]) forall_eq

end LifeStep

open Kernel LifeStep

/-- After a step with the result `r` the process stays `Exited(c)` until it is reaped,
and is not switched to. -/
def StaysExited (p : Nat) (c : Int) : List (LifeStep F) → Option Nat × Machine F → Prop
  | [], r => r.1 ≠ some p ∧ r.2.kernel.stateOf p = some (.exited c)
  | step :: steps, r => (r.1 ≠ some p ∧ r.2.kernel.stateOf p = some (.exited c)) ∧
      (step.Reaps p ∨ StaysExited p c steps (step.run r.2))

def ExitedFinal : List (LifeStep F) → Machine F → Prop
  | [], _ => True
  | step :: steps, m =>
    (∀ p c, m.kernel.stateOf p = some (.exited c) ∧ ¬ step.Reaps p ∨ step.Ends m p c →
      StaysExited p c steps (step.run m)) ∧ ExitedFinal steps (step.run m).2

theorem StaysExited.first {p : Nat} {c : Int} {steps : List (LifeStep F)}
    {r : Option Nat × Machine F} (h : StaysExited p c steps r) :
    r.1 ≠ some p ∧ r.2.kernel.stateOf p = some (.exited c) := by
  cases steps with
  | nil => exact h
  | cons step steps => exact h.1

/-- Every step of the run respects the processes that have exited. -/
def RespectsExited (steps : List (LifeStep F)) (m : Machine F) : Prop :=
  EachStep (fun step m => (step.run m).2) (fun step m => step.Respects m) steps m

theorem RespectsExited.staysExited {p : Nat} {c : Int} {steps : List (LifeStep F)}
    {r : Option Nat × Machine F} (h : RespectsExited steps r.2) (hfresh : r.2.kernel.Fresh)
    (hnow : r.1 ≠ some p ∧ r.2.kernel.stateOf p = some (.exited c)) :
    StaysExited p c steps r := by
  induction steps generalizing r with
  | nil => exact hnow
  | cons step steps ih =>
    refine ⟨hnow, ?_⟩
    obtain ⟨hprepared, hexact⟩ := exact_step hfresh step
    by_cases hreaps : step.Reaps p
    · exact Or.inl hreaps
    · have hnext := hexact.mpr h.1 p c (Or.inl ⟨hnow.2, hreaps⟩)
      exact Or.inr (ih h.2 (fresh_run hprepared) hnext)

theorem exitedFinal_iff_of_fresh {m : Machine F} (hfresh : m.kernel.Fresh)
    (steps : List (LifeStep F)) : ExitedFinal steps m ↔ RespectsExited steps m := by
  induction steps generalizing m with
  | nil => exact iff_of_true trivial trivial
  | cons step steps ih =>
    obtain ⟨hprepared, hexact⟩ := exact_step hfresh step
    have hrest := ih (fresh_run hprepared)
    constructor
    · rintro ⟨hstep, hsteps⟩
      exact ⟨hexact.mp fun p c h => (hstep p c h).first, hrest.mp hsteps⟩
    · rintro ⟨hstep, hsteps⟩
      refine ⟨fun p c h => ?_, hrest.mpr hsteps⟩
      exact RespectsExited.staysExited hsteps (fresh_run hprepared) (hexact.mpr hstep p c h)

/-- The machine after `init_boot_process`. -/
def Machine.boot (fpu : F) : Machine F := ⟨Kernel.boot fpu, fun _ => ⟨false, []⟩⟩

theorem Machine.boot_fresh (fpu : F) : (Machine.boot fpu).kernel.Fresh := by
  intro p hp
  have hle : 2 ≤ p := hp
  have hnone : (Kernel.boot fpu).tasks p = none := if_neg (by omega)
  change ((Kernel.boot fpu).tasks p).map Process.state = none
  rw [hnone, Option.map_none]

/-- In a run every process that has exited stays so until it is reaped, exactly when no
step of the run writes over the state of such a process. -/
theorem exitedFinal_iff (fpu : F) (steps : List (LifeStep F)) :
    ExitedFinal steps (Machine.boot fpu) ↔ RespectsExited steps (Machine.boot fpu) :=
  exitedFinal_iff_of_fresh (Machine.boot_fresh fpu) steps

def revivingRun : List (LifeStep Nat) :=
  [op (.spawn 0), op (.exit 2 7), op (.signal 2 19), op (.signal 2 18), op .schedule]

/-- The process has exited with code 7, and is switched to in the end. -/
theorem revivingRun_switches :
    ((op (.exit 2 7)).run ((op (.spawn 0)).run (Machine.boot 0)).2).2.kernel.stateOf 2 =
        some (.exited 7) ∧
      (revivingRun.foldl (fun r step => step.run r.2) (none, Machine.boot 0)).1 = some 2 ∧
      ¬ ExitedFinal revivingRun (Machine.boot 0) := by
  refine ⟨by decide, by decide, fun h => ?_⟩
  -- The signal to stop follows the exit.
  have hstays := h.2.2.1 2 7 (Or.inl ⟨by decide, id⟩)
  have hblocked := hstays.first.2
  revert hblocked
  decide

end ZiqaKernel
