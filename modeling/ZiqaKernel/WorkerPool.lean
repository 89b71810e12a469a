/-
The worker pool (`worker_pool.rs`): kthreads that take jobs from one queue, and
the shutdown that queues a sentinel for each of them, clears the live-worker
counter and joins them.  Every access to the queue or to the counter is a step
of its own, and the steps of producers, workers and callers of `shutdown`
interleave in any order.
-/
import ZiqaKernel.StepRuns

namespace ZiqaKernel

/-- A queued closure: the work of a producer, or `worker_sentinel`. -/
inductive Job where
  | task (id : Nat)
  | sentinel
deriving DecidableEq

/-- Where a worker stands in `worker_loop`: before it pops a job, with a job in
hand before it reads the counter, before it calls the job, past the loop, or
gone. -/
inductive Worker where
  | idle
  | holding (job : Job)
  | running (job : Job)
  | leaving
  | exited
deriving DecidableEq

/-- A pool of `n` workers.  `checked` are the jobs of producers between the two
steps of `submit`; `pushing` and `joining` count the callers of `shutdown` before
and after the counter is cleared.  The last five fields record what happened. -/
structure WorkerPool (n : Nat) where
  queue : List Job
  liveWorkers : UInt64
  workers : Fin n → Worker
  checked : List Nat
  pushing : Nat
  joining : Nat
  begun : Bool
  submitted : List Nat
  due : List Nat
  ran : List Nat
  dropped : List Nat

inductive PoolStep (n : Nat) where
  | check (id : Nat)
  | push (id : Nat)
  | pop (i : Fin n)
  | load (i : Fin n)
  | call (i : Fin n)
  | leave (i : Fin n)
  | shutdown
  | store
  | join

namespace WorkerPool

variable {n : Nat}

/-- `WorkerPool::new`, once all kthreads are spawned. -/
def new (n : Nat) : WorkerPool n where
  queue := []
  liveWorkers := UInt64.ofNat n
  workers _ := .idle
  checked := []
  pushing := 0
  joining := 0
  begun := false
  submitted := []
  due := []
  ran := []
  dropped := []

def setWorker (p : WorkerPool n) (i : Fin n) (w : Worker) : WorkerPool n :=
  { p with workers := Function.update p.workers i w }

section

variable (p : WorkerPool n) (i : Fin n) (w : Worker)

@[simp] theorem queue_setWorker : (p.setWorker i w).queue = p.queue := rfl

@[simp] theorem ran_setWorker : (p.setWorker i w).ran = p.ran := rfl

@[simp] theorem dropped_setWorker : (p.setWorker i w).dropped = p.dropped := rfl

end

def recordJob (log : List Nat) : Job → List Nat
  | .task id => log ++ [id]
  | .sentinel => log

/-- One step; a step of which the program stands elsewhere does nothing. -/
def step : PoolStep n → WorkerPool n → WorkerPool n
  -- `submit`: the job is dropped when the counter is zero
  | .check id, p => if p.liveWorkers = 0 then p else { p with checked := id :: p.checked }
  | .push id, p =>
    if id ∈ p.checked then
      { p with
        checked := p.checked.erase id
        queue := p.queue ++ [.task id]
        submitted := p.submitted ++ [id]
        due := if p.begun then p.due else p.due ++ [id] }
    else p
  -- `worker_loop`: an empty queue makes the worker yield and try again
  | .pop i, p =>
    match p.workers i, p.queue with
    | .idle, job :: rest => { p.setWorker i (.holding job) with queue := rest }
    | _, _ => p
  | .load i, p =>
    match p.workers i with
    | .holding job =>
      if p.liveWorkers = 0 then
        { p.setWorker i .leaving with dropped := recordJob p.dropped job }
      else p.setWorker i (.running job)
    | _ => p
  | .call i, p =>
    match p.workers i with
    | .running job => { p.setWorker i .idle with ran := recordJob p.ran job }
    | _ => p
  | .leave i, p =>
    match p.workers i with
    | .leaving => { p.setWorker i .exited with liveWorkers := p.liveWorkers - 1 }
    | _ => p
  -- `shutdown`: sentinels, then the counter, then the joins
  | .shutdown, p =>
    { p with
      queue := p.queue ++ List.replicate n .sentinel
      pushing := p.pushing + 1
      begun := true }
  | .store, p =>
    if p.pushing = 0 then p
    else
      { p with
        liveWorkers := 0
        pushing := p.pushing - 1
        joining := p.joining + 1 }
  | .join, p =>
    if p.joining ≠ 0 ∧ ∀ i, p.workers i = .exited then { p with joining := p.joining - 1 }
    else p

def run (steps : List (PoolStep n)) (p : WorkerPool n) : WorkerPool n :=
  steps.foldl (fun p e => step e p) p

def NoWrap (e : PoolStep n) (p : WorkerPool n) : Prop :=
  ∀ i, e = .leave i → p.workers i = .leaving → p.liveWorkers ≠ 0

/-- The accounting that a run is to end with: every job submitted before the
shutdown began was run once, all workers are gone, and the counter is zero and
never went below it. -/
structure Accounts (steps : List (PoolStep n)) : Prop where
  jobs : ∀ id, (run steps (new n)).due.count id ≤ (run steps (new n)).ran.count id ∧
    (run steps (new n)).ran.count id ≤ (run steps (new n)).submitted.count id
  exited : ∀ i, (run steps (new n)).workers i = .exited
  counter : (run steps (new n)).liveWorkers = 0
  noWrap : EachStep step NoWrap steps (new n)

/-- As long as the counter has not wrapped no worker is gone, and a worker that
is past its loop has seen the counter at zero, where it still is. -/
structure Unwrapped (p : WorkerPool n) : Prop where
  present : ∀ i, p.workers i ≠ .exited
  cleared : ∀ i, p.workers i = .leaving → p.liveWorkers = 0

theorem unwrapped_new : Unwrapped (new n) where
  present i := by simp [new]
  cleared i h := by simp [new] at h

theorem Unwrapped.setWorker {p : WorkerPool n} (h : Unwrapped p) {i : Fin n} {w : Worker}
    (hexited : w ≠ .exited) (hleaving : w = .leaving → p.liveWorkers = 0) :
    Unwrapped (p.setWorker i w) where
  present j := by
    by_cases hj : j = i
    · rw [hj, WorkerPool.setWorker]
      simpa using hexited
    · simpa [WorkerPool.setWorker, hj] using h.present j
  cleared j hw := by
    by_cases hj : j = i
    · rw [hj, WorkerPool.setWorker] at hw
      exact hleaving (by simpa using hw)
    · exact h.cleared j (by simpa [WorkerPool.setWorker, hj] using hw)

theorem Unwrapped.congr {p q : WorkerPool n} (h : Unwrapped p)
    (hworkers : q.workers = p.workers) (hlive : p.liveWorkers = 0 → q.liveWorkers = 0) :
    Unwrapped q where
  present i := hworkers ▸ h.present i
  cleared i hi := hlive (h.cleared i (hworkers ▸ hi))

theorem Unwrapped.step {p : WorkerPool n} (h : Unwrapped p) {e : PoolStep n}
    (hwrap : NoWrap e p) : Unwrapped (WorkerPool.step e p) := by
  cases e with
  | check id =>
    simp only [WorkerPool.step]
    split_ifs
    · exact h
    · exact h.congr rfl fun hz => hz
  | push id =>
    simp only [WorkerPool.step]
    split_ifs
    · exact h.congr rfl fun hz => hz
    · exact h.congr rfl fun hz => hz
    · exact h
  | pop i =>
    simp only [WorkerPool.step]
    split
    · next job rest _ _ =>
      have hset := h.setWorker (i := i) (w := .holding job) (by simp) (by simp)
      exact hset.congr rfl fun hz => hz
    · exact h
  | load i =>
    simp only [WorkerPool.step]
    split
    · next job _ =>
      split_ifs with hzero
      · have hset := h.setWorker (i := i) (w := .leaving) (by simp) fun _ => hzero
        exact hset.congr rfl fun hz => hz
      · exact h.setWorker (by simp) (by simp)
    · exact h
  | call i =>
    simp only [WorkerPool.step]
    split
    · have hset := h.setWorker (i := i) (w := .idle) (by simp) (by simp)
      exact hset.congr rfl fun hz => hz
    · exact h
  | leave i =>
    simp only [WorkerPool.step]
    split
    · next hi => exact absurd (h.cleared i hi) (hwrap i rfl hi)
    · exact h
  | shutdown => exact h.congr rfl fun hz => hz
  | store =>
    simp only [WorkerPool.step]
    split_ifs
    · exact h
    · exact h.congr rfl fun _ => rfl
  | join =>
    simp only [WorkerPool.step]
    split_ifs
    · exact h.congr rfl fun hz => hz
    · exact h

/-- In no run of a pool with workers does the accounting come out: the first
worker to leave takes the counter below zero. -/
theorem not_accounts (n : Nat) (hn : 0 < n) (steps : List (PoolStep n)) : ¬ Accounts steps := by
  intro h
  have halong : AlongRun WorkerPool.step Unwrapped steps (new n) :=
    alongRun_of_eachStep (fun _ _ hp hc => hp.step hc) unwrapped_new h.noWrap
  exact halong.last.present ⟨0, hn⟩ (h.exited ⟨0, hn⟩)

/-- One worker that takes a job submitted before the shutdown after the counter
was cleared. -/
def lateRun : List (PoolStep 1) :=
  [.check 7, .push 7, .shutdown, .store, .pop 0, .load 0, .leave 0]

theorem not_accounts_lateRun : 0 < 1 ∧ ¬ Accounts lateRun :=
  ⟨by decide, not_accounts 1 (by decide) lateRun⟩

/-- The job is dropped without being run, and the counter ends at its largest
value. -/
theorem lateRun_loses_job : (run lateRun (new 1)).due = [7] ∧ (run lateRun (new 1)).ran = [] ∧
      (run lateRun (new 1)).workers 0 = .exited ∧
      (run lateRun (new 1)).liveWorkers = 0xFFFFFFFFFFFFFFFF := by
  decide

section

open Finset

/-- How often a job is the one with number `id`: once or never. -/
def tally (id : Nat) (job : Job) : Nat := if job = .task id then 1 else 0

/-- How often a worker has job `id` in hand. -/
def held (id : Nat) : Worker → Nat
  | .holding job | .running job => tally id job
  | .idle | .leaving | .exited => 0

/-- Every job that was queued is in the queue, in the hands of a worker, run or
dropped, and each is in one of these places only. -/
def JobsKept (p : WorkerPool n) : Prop :=
  ∀ id, p.queue.count (.task id) + ∑ i, held id (p.workers i) + p.ran.count id +
    p.dropped.count id = p.submitted.count id

theorem count_recordJob (log : List Nat) (job : Job) (id : Nat) :
    (recordJob log job).count id = log.count id + tally id job := by
  cases job with
  | task k => simp [recordJob, tally, List.count_singleton]
  | sentinel => simp [recordJob, tally]

theorem sum_held_setWorker (p : WorkerPool n) (i : Fin n) (w : Worker) (id : Nat) :
    ∑ j, held id ((p.setWorker i w).workers j) + held id (p.workers i) =
      ∑ j, held id (p.workers j) + held id w := by
  have hself : (p.setWorker i w).workers i = w := by simp [setWorker]
  have hothers : ∑ j ∈ univ.erase i, held id ((p.setWorker i w).workers j) =
      ∑ j ∈ univ.erase i, held id (p.workers j) := by
    apply sum_congr rfl
    intro j hj
    simp [setWorker, ne_of_mem_erase hj]
  rw [← add_sum_erase univ (fun j => held id (p.workers j)) (mem_univ i),
    ← add_sum_erase univ (fun j => held id ((p.setWorker i w).workers j)) (mem_univ i),
    hothers, hself]
  omega

theorem jobsKept_new : JobsKept (new n) := by
  intro id
  simp [new, held]

theorem JobsKept.move {p : WorkerPool n} (h : JobsKept p) {i : Fin n} {w : Worker}
    {id queued ran dropped : Nat}
    (hmove : queued + held id w + ran + dropped =
      p.queue.count (.task id) + held id (p.workers i) + p.ran.count id + p.dropped.count id) :
    queued + ∑ j, held id ((p.setWorker i w).workers j) + ran + dropped = p.submitted.count id := by
  have hid := h id
  have hsum := sum_held_setWorker p i w id
  omega

theorem JobsKept.step {p : WorkerPool n} (h : JobsKept p) (e : PoolStep n) :
    JobsKept (WorkerPool.step e p) := by
  intro id
  have hid := h id
  cases e with
  | check k =>
    simp only [WorkerPool.step]
    split_ifs <;> exact hid
  | push k =>
    have hcount : (p.queue ++ [Job.task k]).count (.task id) + p.submitted.count id =
        p.queue.count (.task id) + (p.submitted ++ [k]).count id := by
      simp only [List.count_append, List.count_singleton, beq_iff_eq, Job.task.injEq]
      omega
    simp only [WorkerPool.step]
    split_ifs
    · simp only
      omega
    · simp only
      omega
    · exact hid
  | pop i =>
    simp only [WorkerPool.step]
    split
    · next job rest hidle hqueue =>
      apply h.move (w := .holding job)
      rw [hqueue, hidle, List.count_cons]
      simp only [held, tally, beq_iff_eq, ran_setWorker, dropped_setWorker]
      omega
    · exact hid
  | load i =>
    simp only [WorkerPool.step]
    split
    · next job hholding =>
      split_ifs
      · apply h.move (w := .leaving)
        rw [hholding, count_recordJob]
        simp only [held, queue_setWorker, ran_setWorker]
        omega
      · apply h.move (w := .running job)
        rw [hholding]
        rfl
    · exact hid
  | call i =>
    simp only [WorkerPool.step]
    split
    · next job hrunning =>
      apply h.move (w := .idle)
      rw [hrunning, count_recordJob]
      simp only [held, queue_setWorker, dropped_setWorker]
      omega
    · exact hid
  | leave i =>
    simp only [WorkerPool.step]
    split
    · next hleaving =>
      apply h.move (w := .exited)
      rw [hleaving]
      rfl
    · exact hid
  | shutdown =>
    simp only [WorkerPool.step, List.count_append, List.count_replicate]
    simpa using hid
  | store =>
    simp only [WorkerPool.step]
    split_ifs <;> exact hid
  | join =>
    simp only [WorkerPool.step]
    split_ifs <;> exact hid

/-- In every run no job is run twice or appears from nowhere; a job can only be
lost by being dropped. -/
theorem jobsKept_run (steps : List (PoolStep n)) : JobsKept (run steps (new n)) := by
  have halong : AlongRun WorkerPool.step JobsKept steps (new n) :=
    alongRun_of_eachStep (fun e _ hp _ => hp.step e) jobsKept_new (eachStep_true _ _)
  exact halong.last

end

end WorkerPool

end ZiqaKernel
