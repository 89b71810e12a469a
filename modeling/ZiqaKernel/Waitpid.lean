/-
Reaping: `Scheduler::waitpid` (`process/scheduler.rs`) over the process table.  Processes
are entered under the numbers that `alloc_pid` gives out one after the other.
-/
import ZiqaKernel.ProcessRecord

namespace ZiqaKernel

/-- The process table, in the order of the pids, with the counter of `alloc_pid`. -/
structure TaskTable where
  procs : List ProcessRecord
  nextPid : Nat
  sorted : procs.Pairwise fun p q => p.pid < q.pid
  allotted : ∀ proc ∈ procs, proc.pid < nextPid

/-- Does `waitpid` look for this process?  The selector is compared as a `u64`. -/
def waitMatches (parent : Nat) (childPid : Int) (proc : ProcessRecord) : Bool :=
  if childPid = -1 then proc.parent = parent
  else proc.pid = (childPid % 2 ^ 64).toNat && proc.parent = parent

/-- The loop of `waitpid`. -/
def findExited (parent : Nat) (childPid : Int) : List ProcessRecord → Option (Nat × Int)
  | [] => none
  | proc :: rest =>
    if waitMatches parent childPid proc then
      match proc.state with
      | .exited code => some (proc.pid, code)
      | _ => findExited parent childPid rest
    else findExited parent childPid rest

namespace TaskTable

def remove (t : TaskTable) (pid : Nat) : TaskTable where
  procs := t.procs.filter (·.pid ≠ pid)
  nextPid := t.nextPid
  sorted := t.sorted.filter _
  allotted proc h := t.allotted proc (List.mem_filter.mp h).1

/-- `waitpid`. -/
def waitpid (t : TaskTable) (parent : Nat) (childPid : Int) : Option (Nat × Int) × TaskTable :=
  match findExited parent childPid t.procs with
  | some (pid, code) => (some (pid, code), t.remove pid)
  | none => (none, t)

def insert (t : TaskTable) (proc : ProcessRecord) : TaskTable where
  procs := t.procs ++ [{ proc with pid := t.nextPid }]
  nextPid := t.nextPid + 1
  sorted := by
    rw [List.pairwise_append]
    refine ⟨t.sorted, List.pairwise_singleton .., fun p hp q hq => ?_⟩
    rw [List.mem_singleton.mp hq]
    exact t.allotted p hp
  allotted p hp := by
    rcases List.mem_append.mp hp with hp | hp
    · exact (t.allotted p hp).trans (Nat.lt_succ_self _)
    · rw [List.mem_singleton.mp hp]
      exact Nat.lt_succ_self _

def write (t : TaskTable) (f : ProcessRecord → ProcessRecord) : TaskTable where
  procs := t.procs.map fun proc => { f proc with pid := proc.pid }
  nextPid := t.nextPid
  sorted := t.sorted.map _ fun _ _ h => h
  allotted p hp := by
    obtain ⟨q, hq, rfl⟩ := List.mem_map.mp hp
    exact t.allotted q hq

end TaskTable

/-! One call -/

/-- The child that a call may reap: the selector is -1, or the pid of the child. -/
structure Reapable (parent : Nat) (childPid : Int) (proc : ProcessRecord) (code : Int) : Prop where
  child : proc.parent = parent
  selected : childPid = -1 ∨ (proc.pid : Int) = childPid % 2 ^ 64
  exited : proc.state = .exited code

section

variable {parent : Nat} {childPid : Int}

theorem waitMatches_iff {proc : ProcessRecord} : waitMatches parent childPid proc = true ↔
    proc.parent = parent ∧ (childPid = -1 ∨ (proc.pid : Int) = childPid % 2 ^ 64) := by
  rw [waitMatches]
  split_ifs with hany
  · simp [hany]
  · rw [Bool.and_eq_true, decide_eq_true_iff, decide_eq_true_iff]
    omega

theorem reapable_of_findExited {procs : List ProcessRecord} {pid : Nat} {code : Int}
    (h : findExited parent childPid procs = some (pid, code)) :
    ∃ proc ∈ procs, proc.pid = pid ∧ Reapable parent childPid proc code := by
  induction procs with
  | nil => cases h
  | cons proc rest ih =>
    rw [findExited] at h
    split at h
    · next hmatches =>
      obtain ⟨hchild, hselected⟩ := waitMatches_iff.mp hmatches
      split at h
      · next code' hstate =>
        obtain ⟨rfl, rfl⟩ := Prod.mk.inj (Option.some.inj h)
        exact ⟨proc, List.mem_cons_self, rfl, hchild, hselected, hstate⟩
      · obtain ⟨q, hq, hfound⟩ := ih h
        exact ⟨q, List.mem_cons_of_mem _ hq, hfound⟩
    · obtain ⟨q, hq, hfound⟩ := ih h
      exact ⟨q, List.mem_cons_of_mem _ hq, hfound⟩

theorem findExited_isSome {procs : List ProcessRecord} {proc : ProcessRecord} {code : Int}
    (hproc : proc ∈ procs) (h : Reapable parent childPid proc code) :
    (findExited parent childPid procs).isSome := by
  induction procs with
  | nil => cases hproc
  | cons q rest ih =>
    rw [findExited]
    rcases List.mem_cons.mp hproc with rfl | hproc
    · rw [if_pos (waitMatches_iff.mpr ⟨h.child, h.selected⟩), h.exited]
      rfl
    · split
      · split
        · rfl
        · exact ih hproc
      · exact ih hproc

end

namespace TaskTable

theorem waitpid_fst (t : TaskTable) (parent : Nat) (childPid : Int) :
    (t.waitpid parent childPid).1 = findExited parent childPid t.procs := by
  rw [waitpid]
  split
  · next h => exact h.symm
  · next h => exact h.symm

theorem eq_of_pid (t : TaskTable) {p q : ProcessRecord} (hp : p ∈ t.procs) (hq : q ∈ t.procs)
    (h : p.pid = q.pid) : p = q := by
  by_contra hne
  have hapart : t.procs.Pairwise fun p q => p.pid ≠ q.pid := t.sorted.imp fun h => h.ne
  have : Std.Symm fun p q : ProcessRecord => p.pid ≠ q.pid := ⟨fun _ _ h => h.symm⟩
  exact hapart.forall hp hq hne h

structure Gone (pid : Nat) (t : TaskTable) : Prop where
  absent : ∀ proc ∈ t.procs, proc.pid ≠ pid
  allotted : pid < t.nextPid

theorem Gone.not_returned {t : TaskTable} {pid : Nat} (h : t.Gone pid) (parent : Nat)
    (childPid code : Int) : (t.waitpid parent childPid).1 ≠ some (pid, code) := by
  rw [waitpid_fst]
  intro hfound
  obtain ⟨proc, hproc, hpid, -⟩ := reapable_of_findExited hfound
  exact h.absent proc hproc hpid

end TaskTable

/-! Runs -/

/-- What happens to the table: calls of `waitpid`, new processes and writes to processes. -/
inductive TableStep where
  | waitpid (parent : Nat) (childPid : Int)
  | insert (proc : ProcessRecord)
  | write (f : ProcessRecord → ProcessRecord)

namespace TaskTable

def step : TableStep → TaskTable → TaskTable
  | .waitpid parent childPid, t => (t.waitpid parent childPid).2
  | .insert proc, t => t.insert proc
  | .write f, t => t.write f

theorem Gone.step {t : TaskTable} {pid : Nat} (h : t.Gone pid) (o : TableStep) :
    (step o t).Gone pid := by
  cases o with
  | waitpid parent childPid =>
    change (t.waitpid parent childPid).2.Gone pid
    rw [TaskTable.waitpid]
    split
    · exact ⟨fun proc hproc => h.absent proc (List.mem_filter.mp hproc).1, h.allotted⟩
    · exact h
  | insert proc =>
    refine ⟨fun q hq => ?_, h.allotted.trans (Nat.lt_succ_self _)⟩
    rcases List.mem_append.mp hq with hq | hq
    · exact h.absent q hq
    · rw [List.mem_singleton.mp hq]
      exact h.allotted.ne'
  | write f =>
    refine ⟨fun q hq => ?_, h.allotted⟩
    obtain ⟨proc, hproc, rfl⟩ := List.mem_map.mp hq
    exact h.absent proc hproc

/-- `waitpid` answers exactly when a child has exited that the selector takes; then it
returns one such child, takes it and nothing else from the table, and no later call
returns it. -/
theorem waitpid_reaps (t : TaskTable) (parent : Nat) (childPid : Int) :
    ((t.waitpid parent childPid).1.isSome ↔
      ∃ proc ∈ t.procs, ∃ code, Reapable parent childPid proc code) ∧
    ((t.waitpid parent childPid).1 = none → (t.waitpid parent childPid).2 = t) ∧
    ∀ pid code, (t.waitpid parent childPid).1 = some (pid, code) →
      (∃ proc ∈ t.procs, proc.pid = pid ∧ Reapable parent childPid proc code ∧
        ∀ q, q ∈ (t.waitpid parent childPid).2.procs ↔ q ∈ t.procs ∧ q ≠ proc) ∧
      ∀ steps, AlongRun step
        (fun t' => ∀ parent' childPid' code', (t'.waitpid parent' childPid').1 ≠ some (pid, code'))
        steps (t.waitpid parent childPid).2 := by
  refine ⟨?_, fun hnone => ?_, fun pid code hfound => ?_⟩
  · rw [waitpid_fst]
    constructor
    · intro h
      obtain ⟨⟨pid, code⟩, hfound⟩ := Option.isSome_iff_exists.mp h
      obtain ⟨proc, hproc, -, hreapable⟩ := reapable_of_findExited hfound
      exact ⟨proc, hproc, code, hreapable⟩
    · rintro ⟨proc, hproc, code, hreapable⟩
      exact findExited_isSome hproc hreapable
  · rw [waitpid_fst] at hnone
    rw [waitpid, hnone]
  · rw [waitpid_fst] at hfound
    have htable : (t.waitpid parent childPid).2 = t.remove pid := by rw [waitpid, hfound]
    obtain ⟨proc, hproc, rfl, hreapable⟩ := reapable_of_findExited hfound
    rw [htable]
    constructor
    · refine ⟨proc, hproc, rfl, hreapable, fun q => ?_⟩
      rw [remove, List.mem_filter, decide_eq_true_iff]
      exact and_congr_right fun hq => not_congr ⟨t.eq_of_pid hq hproc, congrArg _⟩
    · intro steps
      have hgone : (t.remove proc.pid).Gone proc.pid :=
        ⟨fun q hq => by simpa using (List.mem_filter.mp hq).2, t.allotted proc hproc⟩
      have hrun := alongRun_of_eachStep (P := Gone proc.pid) (fun o _ hs _ => hs.step o) hgone
        (eachStep_true steps _)
      exact hrun.imp fun t' ht' => ht'.not_returned

end TaskTable

end ZiqaKernel
