/-
Which runs of the scheduler keep every ready process in the ready queue, and which
process `schedule` picks from it.
-/
import ZiqaKernel.SchedulerWrites
import ZiqaKernel.StepRuns

namespace ZiqaKernel

open Waiter

variable {F : Type}

namespace Kernel

variable {k k' : Kernel F} {S : Nat → Prop} {f : Process F → Process F}

theorem Writes.noneLost (h : Writes S f k k') (hk : k.NoneLost)
    (hf : ∀ proc, (f proc).state = .ready → proc.state = .ready) : k'.NoneLost := by
  intro q proc hq hready
  refine h.ready q ?_
  by_cases hS : S q
  · rw [h.written q hS] at hq
    obtain ⟨old, hold, rfl⟩ := Option.map_eq_some_iff.mp hq
    exact hk q old hold (hf old hready)
  · exact hk q proc (h.kept q hS ▸ hq) hready

/-- Unblocking loses no process exactly when those that are unblocked have an entry
already. -/
theorem Writes.noneLost_iff (h : Writes S (inState .ready) k k') (hready : k'.ready = k.ready)
    (hk : k.NoneLost) : k'.NoneLost ↔ ∀ p, S p → (k.tasks p).isSome = true → p ∈ k.ready := by
  constructor
  · intro hlost p hp hsome
    obtain ⟨proc, hproc⟩ := Option.isSome_iff_exists.mp hsome
    rw [← hready]
    refine hlost p (inState .ready proc) ?_ rfl
    rw [h.written p hp, hproc, Option.map_some]
  · intro hsafe q proc hq hstate
    rw [hready]
    by_cases hS : S q
    · rw [h.written q hS] at hq
      obtain ⟨old, hold, -⟩ := Option.map_eq_some_iff.mp hq
      exact hsafe q hS (by rw [hold]; rfl)
    · exact hk q proc (h.kept q hS ▸ hq) hstate

end Kernel

namespace Op

open Kernel

variable {k : Kernel F}

/-- The operation unblocks only processes that have an entry in the ready queue. -/
def Safe (k : Kernel F) : Op F → Prop
  | futexWake addr count bitset =>
    ∀ p ∈ k.wakenBy count bitset (k.futexes addr), p ∈ k.ready
  | futexRequeue src _ wakeCount _ =>
    ∀ w ∈ (k.futexes src).take wakeCount, (k.tasks w.pid).isSome = true → w.pid ∈ k.ready
  | notify cond => ∀ p ∈ k.conditions cond, (k.tasks p).isSome = true → p ∈ k.ready
  | _ => True

section

variable (h : k.NoneLost)
include h

theorem blockCurrent_noneLost : k.blockCurrent.NoneLost := by
  refine (writes_blockCurrent k).noneLost h fun proc hready => ?_
  unfold blockRunning at hready
  split at hready
  · cases hready
  · exact hready

theorem wakeSleeper_noneLost (pid : Nat) : (wakeSleeper pid k).NoneLost := by
  unfold wakeSleeper
  split
  · exact h
  · split
    · refine NoneLost.scheduleReady ?_ _
      exact h.modify fun _ _ hready => Or.inl hready
    · exact h

theorem timerTick_noneLost : k.timerTick.NoneLost := by
  have hwake : (k.timer.tick wakeSleeper k).2.NoneLost :=
    Timer.wakeSlots_keeps (fun pid _ hk => wakeSleeper_noneLost hk pid) h
  exact hwake

theorem sendSignal_noneLost (target : Nat) (signum : UInt8) :
    (k.sendSignal target signum).NoneLost := by
  unfold sendSignal
  split
  · exact h
  · split_ifs
    · exact h.modify fun _ _ hready => by cases hready
    · exact Queued.setState h fun hready => by cases hready
    · exact h.scheduleReady target
    · exact h
    · exact h

theorem exitProcess_noneLost (pid : Nat) (code : Int) :
    (k.exitProcess pid code).NoneLost := by
  unfold exitProcess
  split
  · exact h
  · refine NoneLost.foldl (fun k w hk => ?_) _ (h.modify fun _ _ hready => by cases hready)
    split
    · exact hk.scheduleReady w
    · exact hk

theorem wakeSleepingMask_noneLost (mask : UInt64) (pids : List Nat) :
    (k.wakeSleepingMask mask pids).NoneLost := by
  refine NoneLost.foldl (fun k p hk => ?_) pids h
  split
  · exact hk
  · split
    · exact hk.scheduleReady p
    · exact hk

theorem prepare_noneLost_iff (op : Op F) :
    (op.prepare k).NoneLost ↔ op.Safe k := by
  cases op with
  | futexWake addr count bitset =>
    have hready : (k.futexWake addr count bitset).2.ready = k.ready :=
      (congrArg Kernel.ready (k.wakeLoop_eq count bitset _)).trans (foldl_unblock_tables _ k).2.2
    refine ((writes_futexWake k addr count bitset).noneLost_iff hready h).trans
      (forall₂_congr fun p hp => ?_)
    obtain ⟨w, hw, rfl⟩ := List.mem_map.mp hp
    have hmem := (List.mem_filter.mp (List.mem_of_mem_take hw)).2
    rw [Bool.and_eq_true] at hmem
    exact ⟨fun himp => himp hmem.2, fun hready _ => hready⟩
  | futexRequeue src dst wakeCount requeueCount =>
    have hready : (k.futexRequeue src dst wakeCount requeueCount).2.ready = k.ready := by
      rw [futexRequeue_eq]
      exact (foldl_unblock_tables _ k).2.2
    refine ((writes_futexRequeue k src dst wakeCount requeueCount).noneLost_iff hready h).trans ?_
    exact List.forall_mem_map
  | notify cond => exact (writes_notify k cond).noneLost_iff (foldl_unblock_tables _ k).2.2 h
  | spawn fpu =>
    refine iff_of_true (fun q proc hq hready => ?_) trivial
    rw [prepare, Kernel.spawn] at hq ⊢
    dsimp only at hq ⊢
    split at hq
    · next heq => exact List.mem_append_right _ (List.mem_singleton.mpr heq)
    · exact List.mem_append_left _ (h q proc hq hready)
  | compute fpu => exact iff_of_true h trivial
  | tick => exact iff_of_true ((writes_tick k).noneLost h fun _ => id) trivial
  | timerTick => exact iff_of_true (timerTick_noneLost h) trivial
  | schedule => exact iff_of_true h trivial
  | block => exact iff_of_true (blockCurrent_noneLost h) trivial
  | join pid =>
    refine iff_of_true ?_ trivial
    rw [prepare, Kernel.join]
    split
    · exact blockCurrent_noneLost ((writes_modify k pid _).noneLost h fun _ => id)
    · exact h
  | futexWait addr valueMatches bitset timeout =>
    refine iff_of_true ?_ trivial
    rw [prepare]
    split
    · exact (writes_futexWait k addr bitset timeout).noneLost h fun _ hready => by cases hready
    · exact h
  | futexCancel addr pid => exact iff_of_true h trivial
  | wait cond =>
    exact iff_of_true ((writes_wait k cond).noneLost h fun _ hready => by cases hready) trivial
  | sleep pid ms =>
    exact iff_of_true ((writes_sleep k pid ms).noneLost h fun _ hready => by cases hready) trivial
  | wakeSleeping mask pids => exact iff_of_true (wakeSleepingMask_noneLost h mask pids) trivial
  | signal target signum => exact iff_of_true (sendSignal_noneLost h target signum) trivial
  | exit pid code => exact iff_of_true (exitProcess_noneLost h pid code) trivial

end

theorem safe_of_yields (op : Op F) (h : op.yields k = true) : op.Safe k := by
  cases op
  case futexWake => cases h
  case futexRequeue => cases h
  case notify => cases h
  all_goals exact trivial

theorem run_noneLost_iff (h : k.NoneLost) (op : Op F) : (op.run k).2.NoneLost ↔ op.Safe k := by
  unfold run
  split
  · next hyields =>
    have hsafe := safe_of_yields op hyields
    exact iff_of_true ((prepare_noneLost_iff h op).mpr hsafe).schedule hsafe
  · exact prepare_noneLost_iff h op

end Op

/-- The state after an operation. -/
def Op.next (op : Op F) (k : Kernel F) : Kernel F := (op.run k).2

/-- Every operation of a run is safe in the state in which it is made. -/
def SafeRun (ops : List (Op F)) (k : Kernel F) : Prop :=
  EachStep Op.next (fun op k => op.Safe k) ops k

theorem along_noneLost_iff {k : Kernel F} (h : k.NoneLost) (ops : List (Op F)) :
    AlongRun Op.next Kernel.NoneLost ops k ↔ SafeRun ops k :=
  alongRun_iff (B := fun _ => True) (D := fun _ _ => True) (fun _ _ _ _ => trivial)
    (fun op _ _ _ hlost => op.run_noneLost_iff hlost) trivial h (eachStep_true ops k)

theorem Kernel.boot_noneLost (fpu : F) : (Kernel.boot fpu).NoneLost := by
  intro p proc hp hready
  rw [Kernel.boot] at hp
  dsimp only at hp
  split at hp
  · obtain rfl := Option.some.inj hp
    cases hready
  · cases hp

/-- In every state of a run every ready process is in the ready queue, exactly when no
operation of the run unblocks a process without an entry there. -/
theorem run_keeps_ready_iff (fpu : F) (ops : List (Op F)) :
    AlongRun Op.next Kernel.NoneLost ops (Kernel.boot fpu) ↔ SafeRun ops (Kernel.boot fpu) :=
  along_noneLost_iff (Kernel.boot_noneLost fpu) ops

/-- The first process waits for a futex and the second one wakes it. -/
def wakeRun : List (Op Nat) :=
  [.spawn 0, .futexWait 0 true 1 none, .futexWake 0 1 1]

/-- The process that has been woken is ready and in no queue. -/
theorem wakeRun_loses : ¬ AlongRun Op.next Kernel.NoneLost wakeRun (Kernel.boot 0) := by
  intro h
  have hmem : 1 ∈ ([] : List Nat) := h.2.2.2 1 _ rfl rfl
  cases hmem

/-! The pick -/

namespace Kernel

/-- The loop of `schedule` drops an entry of this process and goes on. -/
def Passes (k : Kernel F) (q : Nat) : Prop :=
  ∀ proc, k.tasks q = some proc →
    proc.state ≠ .ready ∧ ¬ (k.current = some q ∧ proc.state = .running)

/-- The process is ready and has the smallest `vruntime` of the processes that are ready
and queued. -/
def Lowest (k : Kernel F) (p : Nat) : Prop :=
  ∃ proc, k.tasks p = some proc ∧ proc.state = .ready ∧
    ∀ q ∈ k.ready, ∀ other, k.tasks q = some other → other.state = .ready →
      proc.vruntime ≤ other.vruntime

/-- The process is ready and has the smallest `vruntime` of all processes that are ready,
in the queue or not. -/
def LowestReady (k : Kernel F) (p : Nat) : Prop :=
  ∃ proc, k.tasks p = some proc ∧ proc.state = .ready ∧
    ∀ q other, k.tasks q = some other → other.state = .ready → proc.vruntime ≤ other.vruntime

/-- What `schedule` picks has the smallest `vruntime`. -/
def FairPick (k : Kernel F) : Prop := ∀ p, k.schedule.1 = some p → k.Lowest p

/-- What holds of the first entry of a ready process, if the loop gets there. -/
def FirstReadyEntry (k : Kernel F) (P : Nat → Prop) : Prop :=
  ∀ before p rest, k.ready = before ++ p :: rest → (∀ q ∈ before, k.Passes q) →
    (∃ proc, k.tasks p = some proc ∧ proc.state = .ready) → P p

/-- The first entry of a ready process, if the loop gets there, is the one with the smallest
`vruntime`. -/
def LowestFirst (k : Kernel F) : Prop := k.FirstReadyEntry k.Lowest

/-- The first entry of a ready process, if the loop gets there, has the smallest `vruntime`
also of those that are ready without an entry. -/
def LowestReadyFirst (k : Kernel F) : Prop := k.FirstReadyEntry k.LowestReady

theorem passes_of_none {k : Kernel F} {q : Nat} (h : k.tasks q = none) : k.Passes q := by
  intro proc hproc
  rw [h] at hproc
  cases hproc

/-- The loop picks the process of the first entry that is ready, whatever its `vruntime`. -/
theorem scheduleLoop_fst_iff {k : Kernel F} {queue : List Nat} {p : Nat} :
    (k.scheduleLoop queue).1 = some p ↔ ∃ before rest, queue = before ++ p :: rest ∧
      (∀ q ∈ before, k.Passes q) ∧ ∃ proc, k.tasks p = some proc ∧ proc.state = .ready := by
  induction queue with
  | nil => simp [scheduleLoop]
  | cons q rest ih =>
    -- An entry that is passed can stand before the pick, and is not the pick.
    have hpass (hq : k.Passes q) : (k.scheduleLoop rest).1 = some p ↔
        ∃ before rest', q :: rest = before ++ p :: rest' ∧
          (∀ q ∈ before, k.Passes q) ∧ ∃ proc, k.tasks p = some proc ∧ proc.state = .ready := by
      rw [ih]
      constructor
      · rintro ⟨before, rest', rfl, hbefore, hready⟩
        exact ⟨q :: before, rest', rfl, List.forall_mem_cons.mpr ⟨hq, hbefore⟩, hready⟩
      · rintro ⟨before, rest', hsplit, hbefore, proc, hproc, hready⟩
        cases before with
        | nil =>
          obtain ⟨rfl, -⟩ := List.cons.inj hsplit
          exact absurd hready (hq proc hproc).1
        | cons q' before =>
          obtain ⟨-, rfl⟩ := List.cons.inj hsplit
          exact ⟨before, rest', rfl, (List.forall_mem_cons.mp hbefore).2, proc, hproc, hready⟩
    -- An entry that is not passed can only be the pick.
    have hstop (hq : ¬ k.Passes q) : (∃ before rest', q :: rest = before ++ p :: rest' ∧
        (∀ q ∈ before, k.Passes q) ∧ ∃ proc, k.tasks p = some proc ∧ proc.state = .ready) ↔
          q = p ∧ ∃ proc, k.tasks p = some proc ∧ proc.state = .ready := by
      constructor
      · rintro ⟨before, rest', hsplit, hbefore, hready⟩
        cases before with
        | nil => exact ⟨(List.cons.inj hsplit).1, hready⟩
        | cons q' before =>
          obtain ⟨rfl, -⟩ := List.cons.inj hsplit
          exact absurd (hbefore q List.mem_cons_self) hq
      · rintro ⟨rfl, hready⟩
        exact ⟨[], rest, rfl, by simp, hready⟩
    rw [scheduleLoop]
    split
    · next hnone => exact hpass (passes_of_none hnone)
    · next new hnew =>
      split_ifs with hcurrent hready
      · rw [hstop fun h => (h new hnew).2 hcurrent]
        constructor
        · intro h
          cases h
        · rintro ⟨rfl, proc, hproc, hready⟩
          rw [hnew] at hproc
          rw [← Option.some.inj hproc, hcurrent.2] at hready
          cases hready
      · rw [hstop fun h => (h new hnew).1 hready, Option.some_inj]
        exact ⟨fun h => ⟨h, new, h ▸ hnew, hready⟩, fun h => h.1⟩
      · refine hpass fun proc hproc => ?_
        rw [hnew] at hproc
        rw [← Option.some.inj hproc]
        exact ⟨hready, hcurrent⟩

theorem picks_iff {k : Kernel F} {P : Nat → Prop} :
    (∀ p, k.schedule.1 = some p → P p) ↔ k.FirstReadyEntry P := by
  constructor
  · intro h before p rest hsplit hbefore hready
    exact h p (scheduleLoop_fst_iff.mpr ⟨before, rest, hsplit, hbefore, hready⟩)
  · intro h p hp
    obtain ⟨before, rest, hsplit, hbefore, hready⟩ := scheduleLoop_fst_iff.mp hp
    exact h before p rest hsplit hbefore hready

theorem LowestReady.lowest {k : Kernel F} {p : Nat} (h : k.LowestReady p) : k.Lowest p := by
  obtain ⟨proc, hproc, hready, hle⟩ := h
  exact ⟨proc, hproc, hready, fun q _ other => hle q other⟩

theorem lowestReady_iff {k : Kernel F} (h : k.NoneLost) {p : Nat} :
    k.LowestReady p ↔ k.Lowest p := by
  refine ⟨LowestReady.lowest, ?_⟩
  rintro ⟨proc, hproc, hready, hle⟩
  exact ⟨proc, hproc, hready, fun q other hq hother => hle q (h q other hq hother) other hq hother⟩

theorem lowestReadyFirst_iff {k : Kernel F} (h : k.NoneLost) :
    k.LowestReadyFirst ↔ k.LowestFirst := by
  simp only [LowestReadyFirst, LowestFirst, FirstReadyEntry, lowestReady_iff h]

end Kernel

/-- As long as the process stays ready and until it is picked, no other process is picked
with a larger `vruntime`. -/
def NotOvertaken (p : Nat) : List (Op F) → Kernel F → Prop
  | [], _ => True
  | op :: ops, k => ∀ proc, (op.prepare k).tasks p = some proc → proc.state = .ready →
      (op.run k).1 = some p ∨
        (∀ q new, (op.run k).1 = some q → (op.prepare k).tasks q = some new →
          new.vruntime ≤ proc.vruntime) ∧ NotOvertaken p ops (op.next k)

/-- No process is overtaken from any point of the run on. -/
def NoneOvertaken : List (Op F) → Kernel F → Prop
  | [], _ => True
  | op :: ops, k => (∀ p, NotOvertaken p (op :: ops) k) ∧ NoneOvertaken ops (op.next k)

/-- Each pick of the run has the smallest `vruntime` of the processes that are ready and
queued, and no process that stays ready is overtaken. -/
structure FairRun (ops : List (Op F)) (k : Kernel F) : Prop where
  picks : EachStep Op.next (fun op k => op.yields k → (op.prepare k).FairPick) ops k
  order : NoneOvertaken ops k

section

variable {k : Kernel F}

theorem Op.run_fst_iff {op : Op F} {q : Nat} : (op.run k).1 = some q ↔
    op.yields k = true ∧ (op.prepare k).schedule.1 = some q := by
  unfold Op.run
  by_cases hyields : op.yields k = true
  · rw [if_pos hyields, and_iff_right hyields]
  · rw [if_neg hyields]
    exact iff_of_false (by simp) fun h => hyields h.1

/-- One step: a pick that overtakes no ready process has the smallest `vruntime`. -/
theorem NotOvertaken.lowestReady {op : Op F} {ops : List (Op F)} {q : Nat}
    (h : ∀ p, NotOvertaken p (op :: ops) k) (hyields : op.yields k = true)
    (hq : (op.prepare k).schedule.1 = some q) : (op.prepare k).LowestReady q := by
  obtain ⟨-, -, -, -, new, hnew, hready⟩ := Kernel.scheduleLoop_fst_iff.mp hq
  refine ⟨new, hnew, hready, fun p other hp hother => ?_⟩
  have hpick := Op.run_fst_iff.mpr ⟨hyields, hq⟩
  rcases h p other hp hother with hself | ⟨hle, -⟩
  · obtain rfl : q = p := Option.some.inj (hpick.symm.trans hself)
    obtain rfl : new = other := Option.some.inj (hnew.symm.trans hp)
    exact Nat.le_refl _
  · exact hle q new hpick hnew

theorem notOvertaken_of_lowest {ops : List (Op F)}
    (h : EachStep Op.next (fun op k => op.yields k → (op.prepare k).LowestReadyFirst) ops k)
    (p : Nat) : NotOvertaken p ops k := by
  induction ops generalizing k with
  | nil => trivial
  | cons op ops ih =>
    intro proc hproc hready
    refine Or.inr ⟨fun q new hpick hnew => ?_, ih h.2⟩
    obtain ⟨hyields, hq⟩ := Op.run_fst_iff.mp hpick
    obtain ⟨new', hnew', -, hle⟩ := Kernel.picks_iff.mpr (h.1 hyields) q hq
    obtain rfl : new' = new := Option.some.inj (hnew'.symm.trans hnew)
    exact hle p proc hproc hready

/-- A run overtakes nobody exactly when each of its picks is the lowest of all ready
processes: from each call of `schedule` on, the run is one in which they stay ready. -/
theorem noneOvertaken_iff (ops : List (Op F)) : NoneOvertaken ops k ↔
    EachStep Op.next (fun op k => op.yields k → (op.prepare k).LowestReadyFirst) ops k := by
  induction ops generalizing k with
  | nil => exact Iff.rfl
  | cons op ops ih =>
    constructor
    · rintro ⟨hfirst, hrest⟩
      refine ⟨fun hyields => Kernel.picks_iff.mp fun q hq => ?_, ih.mp hrest⟩
      exact NotOvertaken.lowestReady hfirst hyields hq
    · intro h
      exact ⟨notOvertaken_of_lowest h, ih.mpr h.2⟩

theorem fairRun_iff (ops : List (Op F)) : FairRun ops k ↔
    EachStep Op.next (fun op k => op.yields k → (op.prepare k).LowestReadyFirst) ops k := by
  constructor
  · intro h
    exact (noneOvertaken_iff ops).mp h.order
  · intro h
    refine ⟨h.imp fun op k hop hyields p hp => ?_, (noneOvertaken_iff ops).mpr h⟩
    exact (Kernel.picks_iff.mpr (hop hyields) p hp).lowest

/-- Where no ready process is outside the queue, and none gets there, it is enough to look
at the queue. -/
theorem lowestReadyFirst_along_iff (h : k.NoneLost) {ops : List (Op F)} (hsafe : SafeRun ops k) :
    EachStep Op.next (fun op k => op.yields k → (op.prepare k).LowestReadyFirst) ops k ↔
      EachStep Op.next (fun op k => op.yields k → (op.prepare k).LowestFirst) ops k := by
  refine eachStep_congr (P := Kernel.NoneLost) (fun op s hs hop => ?_) h hsafe
  have hprepared := (Op.prepare_noneLost_iff hs op).mpr hop
  exact ⟨(op.run_noneLost_iff hs).mpr hop,
    imp_congr_right fun _ => Kernel.lowestReadyFirst_iff hprepared⟩

end

/-- The pick is fair exactly when the queue happens to have the process with the smallest
`vruntime` first.  A run is fair, in its picks and in the order in which processes that stay
ready are picked, exactly when at each call of `schedule` the first entry of a ready process
has the smallest `vruntime` of all that are ready.  Where no operation of the run leaves a
ready process without an entry, those in the queue decide. -/
theorem fairPick_iff (k : Kernel F) :
    (k.FairPick ↔ k.LowestFirst) ∧
    ∀ ops : List (Op F),
      (FairRun ops k ↔
        EachStep Op.next (fun op k => op.yields k → (op.prepare k).LowestReadyFirst) ops k) ∧
      (k.NoneLost → SafeRun ops k → (FairRun ops k ↔
        EachStep Op.next (fun op k => op.yields k → (op.prepare k).LowestFirst) ops k)) := by
  refine ⟨Kernel.picks_iff, fun ops => ⟨fairRun_iff ops, fun hlost hsafe => ?_⟩⟩
  exact (fairRun_iff ops).trans (lowestReadyFirst_along_iff hlost hsafe)

/-- The first process has used a tick when it gives way to the second one, which has not
run. -/
theorem fairPick_second : FairRun [.spawn 0, .tick, .schedule] (Kernel.boot 0) := by
  have hsafe : SafeRun [.spawn 0, .tick, .schedule] (Kernel.boot 0) :=
    ⟨trivial, trivial, trivial, trivial⟩
  refine (((fairPick_iff (Kernel.boot 0)).2 _).2 (Kernel.boot_noneLost 0) hsafe).mpr
    ⟨by simp [Op.yields], by simp [Op.yields], ?_⟩
  refine ⟨fun _ => Kernel.picks_iff.mp fun p hp => ?_, trivial⟩
  obtain rfl : 2 = p := Option.some.inj hp
  exact ⟨_, rfl, rfl, fun _ _ _ _ _ => Nat.zero_le _⟩

/-- The first process has used a tick when it gives way to the second one, which starts a
third. -/
def lateRun : List (Op Nat) := [.spawn 0, .tick, .schedule, .spawn 0]

/-- The first process is picked before the third, which has not run at all and is ready
and queued. -/
theorem lateRun_unfair :
    ¬ (lateRun.foldl (fun k op => op.next k) (Kernel.boot 0)).FairPick ∧
      ¬ NoneOvertaken (lateRun ++ [.schedule]) (Kernel.boot 0) := by
  have hfacts : (lateRun.foldl (fun k op => op.next k) (Kernel.boot 0)).schedule.1 = some 1 ∧
      3 ∈ (lateRun.foldl (fun k op => op.next k) (Kernel.boot 0)).ready ∧
      ((lateRun.foldl (fun k op => op.next k) (Kernel.boot 0)).tasks 1).map (·.vruntime) =
        some 1 ∧
      ((lateRun.foldl (fun k op => op.next k) (Kernel.boot 0)).tasks 3).map
        (fun proc => (proc.state, proc.vruntime)) = some (.ready, 0) := by decide +kernel
  have hunfair : ¬ (lateRun.foldl (fun k op => op.next k) (Kernel.boot 0)).FairPick := by
    generalize lateRun.foldl (fun k op => op.next k) (Kernel.boot 0) = k at hfacts ⊢
    obtain ⟨hpick, hqueued, hfirst, hthird⟩ := hfacts
    obtain ⟨third, hthird, hfields⟩ := Option.map_eq_some_iff.mp hthird
    obtain ⟨hready, hzero⟩ := Prod.mk.inj hfields
    intro h
    obtain ⟨first, htask, -, hlowest⟩ := h 1 hpick
    rw [htask] at hfirst
    have hone : first.vruntime = 1 := Option.some.inj hfirst
    have hle := hlowest 3 hqueued third hthird hready
    omega
  refine ⟨hunfair, fun h => hunfair fun p hp => ?_⟩
  have hlast := (eachStep_append.mp ((noneOvertaken_iff _).mp h)).2.1 rfl
  exact (Kernel.picks_iff.mpr hlast p hp).lowest

end ZiqaKernel
