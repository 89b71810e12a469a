/-
What each operation of the scheduler writes before it calls `schedule`: which processes it
rewrites, and how.
-/
import ZiqaKernel.Scheduler

namespace ZiqaKernel

open Waiter

variable {F : Type}

namespace Kernel

variable {k k' k'' : Kernel F} {p : Nat} {S : Nat → Prop} {f g : Process F → Process F}

/-! The loop of `wake` -/

/-- The processes that `wake` unblocks: of the waiters that match and still exist, the
first `count`. -/
def wakenBy (k : Kernel F) (count : Nat) (bitset : UInt32) (waiters : List Waiter) : List Nat :=
  ((waiters.filter fun w => w.bitset &&& bitset ≠ 0 && (k.tasks w.pid).isSome).take
    count).map pid

/-- The waiters of a list that `wake` wakes when it takes them out. -/
def wakeable (k : Kernel F) (bitset : UInt32) (waiters : List Waiter) : List Waiter :=
  waiters.filter fun w => w.bitset &&& bitset ≠ 0 && (k.tasks w.pid).isSome

theorem wakeable_unblock (k : Kernel F) (p : Nat) (bitset : UInt32) (waiters : List Waiter) :
    (k.unblock p).wakeable bitset waiters = k.wakeable bitset waiters := by
  simp only [wakeable, isSome_unblock]

/-- The loop of `wake` goes through the waiters `seen` and takes out those that match; it
ends when it has woken `count` of them, or with the last waiter. -/
structure WakeSplit (k : Kernel F) (count : Nat) (bitset : UInt32)
    (waiters seen rest : List Waiter) : Prop where
  split : waiters = seen ++ rest
  kept : (k.wakeLoop count bitset waiters).2.1 =
    seen.filter (fun w => w.bitset &&& bitset = 0) ++ rest
  unblocked : (k.wakeLoop count bitset waiters).2.2 =
    ((k.wakeable bitset seen).map pid).foldl unblock k
  returned : (k.wakeLoop count bitset waiters).1 = (k.wakeable bitset seen).length
  le : (k.wakeable bitset seen).length ≤ count
  whole : (k.wakeable bitset seen).length < count → rest = []

theorem wakeSplit_exists (k : Kernel F) (count : Nat) (bitset : UInt32) (waiters : List Waiter) :
    ∃ seen rest, WakeSplit k count bitset waiters seen rest := by
  induction waiters generalizing k count with
  | nil => exact ⟨[], [], by constructor <;> simp [wakeLoop, wakeable]⟩
  | cons w waiters ih =>
    by_cases hcount : count = 0
    · subst hcount
      exact ⟨[], w :: waiters, by constructor <;> simp [wakeLoop, wakeable]⟩
    · by_cases hbits : w.bitset &&& bitset = 0
      · obtain ⟨seen, rest, h⟩ := ih k count
        have hw : k.wakeable bitset (w :: seen) = k.wakeable bitset seen := by
          simp [wakeable, hbits]
        refine ⟨w :: seen, rest, ?_⟩
        constructor
        · simp [h.split]
        · simp [wakeLoop, hcount, hbits, h.kept]
        · simp [wakeLoop, hcount, hbits, h.unblocked, hw]
        · simp [wakeLoop, hcount, hbits, h.returned, hw]
        · rw [hw]
          exact h.le
        · rw [hw]
          exact h.whole
      · by_cases hsome : (k.tasks w.pid).isSome
        · obtain ⟨seen, rest, h⟩ := ih (k.unblock w.pid) (count - 1)
          have hw : k.wakeable bitset (w :: seen) = w :: k.wakeable bitset seen := by
            simp [wakeable, hbits, hsome]
          have hrest := k.wakeable_unblock w.pid bitset seen
          have hle := h.le
          have hwhole := h.whole
          rw [hrest] at hle hwhole
          refine ⟨w :: seen, rest, ?_⟩
          constructor
          · simp [h.split]
          · simp [wakeLoop, hcount, hbits, hsome, h.kept]
          · simp [wakeLoop, hcount, hbits, hsome, h.unblocked, hw, hrest]
          · simp [wakeLoop, hcount, hbits, hsome, h.returned, hw, hrest]
          · rw [hw, List.length_cons]
            omega
          · rw [hw, List.length_cons]
            exact fun hlt => hwhole (by omega)
        · obtain ⟨seen, rest, h⟩ := ih k count
          have hw : k.wakeable bitset (w :: seen) = k.wakeable bitset seen := by
            simp [wakeable, hsome]
          refine ⟨w :: seen, rest, ?_⟩
          constructor
          · simp [h.split]
          · simp [wakeLoop, hcount, hbits, hsome, h.kept]
          · simp [wakeLoop, hcount, hbits, hsome, h.unblocked, hw]
          · simp [wakeLoop, hcount, hbits, hsome, h.returned, hw]
          · rw [hw]
            exact h.le
          · rw [hw]
            exact h.whole

theorem WakeSplit.wakenBy_eq {count : Nat} {bitset : UInt32} {waiters seen rest : List Waiter}
    (h : WakeSplit k count bitset waiters seen rest) :
    k.wakenBy count bitset waiters = (k.wakeable bitset seen).map pid := by
  change ((k.wakeable bitset waiters).take count).map pid = _
  have happend : k.wakeable bitset waiters = k.wakeable bitset seen ++ k.wakeable bitset rest := by
    rw [h.split, wakeable, List.filter_append]
    rfl
  rw [happend]
  rcases Nat.lt_or_eq_of_le h.le with hlt | heq
  · have hrest : k.wakeable bitset rest = [] := by rw [h.whole hlt, wakeable, List.filter_nil]
    rw [hrest, List.append_nil, List.take_of_length_le h.le]
  · rw [List.take_left' heq]

theorem wakeLoop_eq (k : Kernel F) (count : Nat) (bitset : UInt32) (waiters : List Waiter) :
    (k.wakeLoop count bitset waiters).2.2 = (k.wakenBy count bitset waiters).foldl unblock k := by
  obtain ⟨seen, rest, h⟩ := k.wakeSplit_exists count bitset waiters
  rw [h.unblocked, h.wakenBy_eq]

/-! Sets of processes that are rewritten -/

/-- From `k` to `k'` the processes of `S` are rewritten by `f`.  No process is switched to, and
no entry of the ready queue is lost. -/
structure Writes (S : Nat → Prop) (f : Process F → Process F) (k k' : Kernel F) : Prop where
  written : ∀ q, S q → k'.tasks q = (k.tasks q).map f
  kept : ∀ q, ¬ S q → k'.tasks q = k.tasks q
  current : k'.current = k.current
  nextPid : k'.nextPid = k.nextPid
  ready : ∀ q ∈ k.ready, q ∈ k'.ready

theorem writes_modify (k : Kernel F) (p : Nat) (f : Process F → Process F) :
    Writes (· = p) f k (k.modify p f) :=
  ⟨fun _ hq => if_pos hq, fun _ hq => if_neg hq, rfl, rfl, fun _ => id⟩

/-- Nothing has to be written where `f` changes none of the processes. -/
theorem writes_self (h : ∀ q proc, S q → k.tasks q = some proc → f proc = proc) :
    Writes S f k k := by
  refine ⟨fun q hq => ?_, fun _ _ => rfl, rfl, rfl, fun _ => id⟩
  cases hproc : k.tasks q with
  | none => rfl
  | some proc => rw [Option.map_some, h q proc hq hproc]

theorem writes_none (h : k.tasks p = none) : Writes (· = p) f k k := by
  refine writes_self fun q proc hq hproc => ?_
  rw [show q = p from hq, h] at hproc
  cases hproc

theorem writes_fixed {old : Process F} (hold : k.tasks p = some old) (h : f old = old) :
    Writes (· = p) f k k := by
  refine writes_self fun q proc hq hproc => ?_
  rwa [Option.some.inj (hproc.symm.trans (hq ▸ hold))]

/-- Only what `f` makes of the process that is there counts. -/
theorem Writes.on {old : Process F} (h : Writes (· = p) f k k') (hold : k.tasks p = some old)
    (hf : f old = g old) : Writes (· = p) g k k' := by
  refine { h with written := fun q hq => ?_ }
  rw [h.written q hq, show q = p from hq, hold, Option.map_some, hf, Option.map_some]

theorem Writes.comp (h : Writes S f k k') (h' : Writes S g k' k'') :
    Writes S (g ∘ f) k k'' where
  written q hq := by rw [h'.written q hq, h.written q hq, Option.map_map]
  kept q hq := (h'.kept q hq).trans (h.kept q hq)
  current := h'.current.trans h.current
  nextPid := h'.nextPid.trans h.nextPid
  ready q hq := h'.ready q (h.ready q hq)

/-- A loop may rewrite a process several times, but that is as good as once. -/
theorem writes_foldl {α : Type} {step : Kernel F → α → Kernel F} {T : α → Nat → Prop}
    (hstep : ∀ k a, Writes (T a) f k (step k a)) (hf : ∀ proc, f (f proc) = f proc)
    (items : List α) (k : Kernel F) :
    Writes (fun q => ∃ a ∈ items, T a q) f k (items.foldl step k) := by
  induction items generalizing k with
  | nil => exact writes_self fun q _ hq => absurd hq (by simp)
  | cons a items ih =>
    have hfirst := hstep k a
    have hrest := ih (step k a)
    refine ⟨fun q hq => ?_, fun q hq => ?_, hrest.current.trans hfirst.current,
      hrest.nextPid.trans hfirst.nextPid, fun q hq => hrest.ready q (hfirst.ready q hq)⟩
    · rw [List.foldl_cons]
      rw [List.exists_mem_cons_iff] at hq
      by_cases hmem : ∃ b ∈ items, T b q
      · rw [hrest.written q hmem]
        by_cases ha : T a q
        · rw [hfirst.written q ha, Option.map_map]
          exact congrArg (fun h => (k.tasks q).map h) (funext hf)
        · rw [hfirst.kept q ha]
      · rw [hrest.kept q hmem, hfirst.written q (hq.resolve_right hmem)]
    · rw [List.exists_mem_cons_iff, not_or] at hq
      exact (hrest.kept q hq.2).trans (hfirst.kept q hq.1)

theorem writes_each {step : Kernel F → Nat → Kernel F}
    (hstep : ∀ k p, Writes (· = p) f k (step k p)) (hf : ∀ proc, f (f proc) = f proc)
    (pids : List Nat) (k : Kernel F) : Writes (· ∈ pids) f k (pids.foldl step k) := by
  simpa using writes_foldl hstep hf pids k

theorem writes_noCurrent (h : k.current = none) (f : Process F → Process F) :
    Writes (fun q => k.current = some q) f k k :=
  writes_self fun q _ hq => by
    rw [h] at hq
    cases hq

theorem Writes.ofCurrent (h : Writes (· = p) f k k') (hp : k.current = some p) :
    Writes (fun q => k.current = some q) f k k' := by
  simpa only [hp, Option.some.injEq, eq_comm] using h

/-! The operations -/

def inState (state : ProcessState) (proc : Process F) : Process F := { proc with state := state }

/-- What the operations that wake blocked processes make of one. -/
def wakeBlocked (proc : Process F) : Process F :=
  if proc.state = .blocked then inState .ready proc else proc

/-- What the timer makes of a process that it finds due. -/
def timeOut (proc : Process F) : Process F :=
  if proc.state = .blocked then { proc with state := .ready, timedOut := true } else proc

def blockRunning (proc : Process F) : Process F :=
  if proc.state = .running then inState .blocked proc else proc

/-- What a signal makes of its target. -/
def signaled (signum : UInt8) (proc : Process F) : Process F :=
  if signum = 9 then { proc with state := .exited (-1), exitCode := -1 }
  else if signum = 19 then inState .blocked proc
  else if signum = 18 then wakeBlocked proc
  else proc

theorem writes_scheduleReady (k : Kernel F) (p : Nat) :
    Writes (· = p) (inState .ready) k (k.scheduleReady p) :=
  { writes_modify k p (inState .ready) with ready := fun _ => List.mem_append_left _ }

theorem writes_unblockAll (pids : List Nat) (k : Kernel F) :
    Writes (· ∈ pids) (inState .ready) k (pids.foldl unblock k) :=
  writes_each (f := inState .ready) (fun k p => writes_modify k p _) (fun _ => rfl) pids k

theorem foldl_unblock_tables (pids : List Nat) (k : Kernel F) :
    (pids.foldl unblock k).futexes = k.futexes ∧ (pids.foldl unblock k).timer = k.timer ∧
      (pids.foldl unblock k).ready = k.ready := by
  induction pids generalizing k with
  | nil => exact ⟨rfl, rfl, rfl⟩
  | cons p pids ih => exact ih (k.unblock p)

theorem writes_readyAll (pids : List Nat) (k : Kernel F) :
    Writes (· ∈ pids) (inState .ready) k
      (pids.foldl (fun k w => if (k.tasks w).isSome then k.scheduleReady w else k) k) := by
  refine writes_each (f := inState .ready) (fun k w => ?_) (fun _ => rfl) pids k
  split
  · exact writes_scheduleReady k w
  · next hnone =>
    refine writes_self fun q proc hq hproc => absurd ?_ hnone
    rw [← show q = w from hq, hproc]
    rfl

theorem writes_futexWake (k : Kernel F) (addr count : Nat) (bitset : UInt32) :
    Writes (· ∈ k.wakenBy count bitset (k.futexes addr)) (inState .ready) k
      (k.futexWake addr count bitset).2 := by
  have hwake := writes_unblockAll (k.wakenBy count bitset (k.futexes addr)) k
  rw [← wakeLoop_eq] at hwake
  exact { hwake with }

theorem writes_futexRequeue (k : Kernel F) (src dst wakeCount requeueCount : Nat) :
    Writes (· ∈ ((k.futexes src).take wakeCount).map pid) (inState .ready) k
      (k.futexRequeue src dst wakeCount requeueCount).2 := by
  rw [futexRequeue_eq]
  exact { writes_unblockAll (((k.futexes src).take wakeCount).map pid) k with }

theorem writes_notify (k : Kernel F) (cond : Nat) :
    Writes (· ∈ k.conditions cond) (inState .ready) k (k.notify cond) :=
  { writes_unblockAll (k.conditions cond) k with }

theorem writes_wakeSleeper (pid : Nat) (k : Kernel F) :
    Writes (· = pid) timeOut k (wakeSleeper pid k) := by
  unfold wakeSleeper
  split
  · next hnone => exact writes_none hnone
  · next old hold =>
    split
    · next hblocked =>
      refine ((writes_modify k pid _).comp (writes_scheduleReady _ pid)).on hold ?_
      exact (if_pos hblocked).symm
    · next hblocked => exact writes_fixed hold (if_neg hblocked)

theorem timeOut_timeOut (proc : Process F) : timeOut (timeOut proc) = timeOut proc := by
  unfold timeOut
  by_cases hblocked : proc.state = .blocked <;> simp [hblocked]

theorem writes_timerTick (k : Kernel F) :
    Writes (fun q => k.timer.duePid q = true) timeOut k k.timerTick := by
  have htasks (q : Nat) : k.timerTick.tasks q =
      if k.timer.duePid q then (k.tasks q).map timeOut else k.tasks q := by
    refine Timer.wakeSlots_view (v := fun k : Kernel F => k.tasks q) (f := Option.map timeOut)
      (fun x => ?_) fun p k => ?_
    · rw [Option.map_map]
      exact congrArg (Option.map · x) (funext timeOut_timeOut)
    · have hwake := writes_wakeSleeper p k
      split
      · next hq => exact hwake.written q hq
      · next hq => exact hwake.kept q hq
  have hframe : k.timerTick.current = k.current ∧ k.timerTick.nextPid = k.nextPid ∧
      ∀ q ∈ k.ready, q ∈ k.timerTick.ready :=
    Timer.wakeSlots_keeps (P := fun k' : Kernel F => k'.current = k.current ∧
      k'.nextPid = k.nextPid ∧ ∀ q ∈ k.ready, q ∈ k'.ready)
      (fun p k' hk =>
        have hwake := writes_wakeSleeper p k'
        ⟨hwake.current.trans hk.1, hwake.nextPid.trans hk.2.1,
          fun q hq => hwake.ready q (hk.2.2 q hq)⟩)
      ⟨rfl, rfl, fun _ => id⟩
  refine ⟨fun q hq => ?_, fun q hq => ?_, hframe.1, hframe.2.1, hframe.2.2⟩
  · rw [htasks, if_pos hq]
  · rw [htasks, if_neg hq]

theorem wakeBlocked_wakeBlocked (proc : Process F) :
    wakeBlocked (wakeBlocked proc) = wakeBlocked proc := by
  unfold wakeBlocked
  by_cases hblocked : proc.state = .blocked <;> simp [hblocked, inState]

theorem writes_wakeBlocked {old : Process F} (hold : k.tasks p = some old)
    (hblocked : old.state = .blocked) : Writes (· = p) wakeBlocked k (k.scheduleReady p) :=
  (writes_scheduleReady k p).on hold (if_pos hblocked).symm

theorem writes_wakeSleepingMask (k : Kernel F) (mask : UInt64) (pids : List Nat) :
    Writes (fun q => ∃ p ∈ pids, q = p ∧ p < 64 ∧ mask &&& (1 <<< UInt64.ofNat p) ≠ 0)
      wakeBlocked k (k.wakeSleepingMask mask pids) := by
  refine writes_foldl (fun k p => ?_) wakeBlocked_wakeBlocked pids k
  by_cases hmask : p < 64 ∧ mask &&& (1 <<< UInt64.ofNat p) ≠ 0
  · have hp : (fun q => q = p ∧ p < 64 ∧ mask &&& (1 <<< UInt64.ofNat p) ≠ 0) = (· = p) :=
      funext fun q => propext (and_iff_left hmask)
    rw [hp]
    split
    · next hnone => exact writes_none hnone
    · next old hold =>
      split
      · next h => exact writes_wakeBlocked hold h.1
      · next h => exact writes_fixed hold (if_neg fun hblocked => h ⟨hblocked, hmask⟩)
  · split
    · exact writes_self fun _ _ hq => absurd hq.2 hmask
    · rw [if_neg fun h => hmask h.2]
      exact writes_self fun _ _ hq => absurd hq.2 hmask

theorem writes_sendSignal (k : Kernel F) (target : Nat) (signum : UInt8) :
    Writes (· = target) (signaled signum) k (k.sendSignal target signum) := by
  unfold sendSignal
  split
  · next hnone => exact writes_none hnone
  · next old hold =>
    unfold signaled
    split_ifs with hkill hstop hcont hblocked
    · exact writes_modify k target _
    · exact writes_modify k target _
    · exact writes_wakeBlocked hold hblocked
    · exact writes_fixed hold (if_neg hblocked)
    · exact writes_fixed hold rfl

theorem writes_blockCurrent (k : Kernel F) :
    Writes (fun q => k.current = some q) blockRunning k k.blockCurrent := by
  unfold blockCurrent
  split
  · next hnone => exact writes_noCurrent hnone _
  · next p hp => exact (writes_modify k p _).ofCurrent hp

theorem writes_tick (k : Kernel F) : Writes (fun q => k.current = some q)
    (fun proc => { proc with vruntime := proc.vruntime + 1 }) k k.tick := by
  unfold tick
  split
  · next hnone => exact { writes_noCurrent hnone _ with }
  · next p hp => exact { (writes_modify k p _).ofCurrent hp with }

theorem writes_futexWait (k : Kernel F) (addr : Nat) (bitset : UInt32)
    (timeout : Option UInt64) : Writes (fun q => k.current = some q)
      (fun proc => { proc with state := .blocked, timedOut := false }) k
      (k.futexWait addr bitset timeout) := by
  unfold futexWait
  split
  · next hnone => exact writes_noCurrent hnone _
  · next p hp =>
    have hblock := (writes_modify k p
      fun proc => { proc with state := .blocked, timedOut := false }).ofCurrent hp
    cases timeout with
    | none => exact { hblock with }
    | some ms => exact { hblock with }

theorem writes_wait (k : Kernel F) (cond : Nat) :
    Writes (fun q => k.current = some q) (inState .blocked) k (k.wait cond) := by
  unfold wait
  split
  · next hnone => exact writes_noCurrent hnone _
  · next p hp => exact { (writes_modify k p (inState .blocked)).ofCurrent hp with }

theorem writes_sleep (k : Kernel F) (pid : Nat) (ms : UInt64) :
    Writes (· = pid) (inState .blocked) k ((k.setState pid .blocked).addSleeper pid ms) :=
  { writes_modify k pid (inState .blocked) with }

/-- The two goes of `exit_process`: the process exits, and those that wait for it are
made ready. -/
theorem exitProcess_writes {proc : Process F} (hproc : k.tasks p = some proc) (code : Int) :
    ∃ k₁, Writes (· = p) (fun proc =>
        { proc with state := .exited code, exitCode := code, joinWaiters := [] }) k k₁ ∧
      Writes (· ∈ proc.joinWaiters) (inState .ready) k₁ (k.exitProcess p code) := by
  refine ⟨_, writes_modify k p _, ?_⟩
  unfold exitProcess
  rw [hproc]
  exact writes_readyAll proc.joinWaiters _

theorem exitProcess_none (h : k.tasks p = none) (code : Int) : k.exitProcess p code = k := by
  unfold exitProcess
  rw [h]

end Kernel

end ZiqaKernel
