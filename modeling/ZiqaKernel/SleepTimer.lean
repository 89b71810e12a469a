/-
The table of sleepers (`timer.rs`) with its 64-bit ticks, and when the processes that
`sleep_ms` has blocked become ready again.
-/
import ZiqaKernel.Scheduler
import ZiqaKernel.StepRuns

namespace ZiqaKernel

namespace Timer

/-- What `wake_sleepers` does to the process of an entry that is due. -/
def wake (pid : Nat) (states : Nat → Option ProcessState) : Nat → Option ProcessState :=
  fun q => if q = pid ∧ states q = some .blocked then some .ready else states q

end Timer

/-- A call of `sleep_ms`: the number of ticks before it, and the time asked for. -/
structure Nap where
  start : Nat
  ms : Nat
deriving DecidableEq

/-- At the tick with the number `now` the time asked for has elapsed. -/
def Nap.Over (nap : Nap) (now : Nat) : Prop :=
  nap.start < now ∧ nap.ms ≤ (now - nap.start) * 10

instance (nap : Nap) (now : Nat) : Decidable (nap.Over now) :=
  inferInstanceAs (Decidable (_ ∧ _))

theorem Nap.over_iff {nap : Nap} {now : Nat} (h : nap.start < now) :
    nap.Over now ↔ nap.start + (nap.ms + 9) / 10 ≤ now := by
  unfold Nap.Over
  omega

/-- The timer and the states of the processes; `now` counts the ticks, and `naps` holds
the calls of `sleep_ms` whose time has not elapsed. -/
structure SleepMachine where
  timer : Timer
  states : Nat → Option ProcessState
  now : Nat
  naps : Nat → Option Nap

inductive SleepStep where
  /-- `timer::sleep_ms` -/
  | sleepMs (pid : Nat) (ms : UInt64)
  /-- an entry alone, as `sys_futex` makes it -/
  | arm (pid : Nat) (ms : UInt64)
  /-- `timer::tick` -/
  | tick
  /-- `wake_sleeping_mask` -/
  | wakeMask (mask : UInt64)
  /-- any other write of a state, such as `Running` at the end of `sys_nanosleep` -/
  | write (pid : Nat) (state : Option ProcessState)

/-- The bit of a process in the mask of `wake_sleeping_mask`. -/
def inMask (mask : UInt64) (pid : Nat) : Bool :=
  pid < 64 && mask &&& (1 <<< UInt64.ofNat pid) ≠ 0

namespace SleepStep

open Timer

def run (step : SleepStep) (m : SleepMachine) : SleepMachine :=
  match step with
  | sleepMs pid ms =>
    { m with
      timer := (m.timer.sleepMs pid ms).2
      states := fun q => if q = pid then (m.states q).map fun _ => .blocked else m.states q
      naps := fun q => if q = pid ∧ (m.states q).isSome then some ⟨m.now, ms.toNat⟩
        else m.naps q }
  | arm pid ms => { m with timer := (m.timer.sleepMs pid ms).2 }
  | tick =>
    { timer := (m.timer.tick wake m.states).1
      states := (m.timer.tick wake m.states).2
      now := m.now + 1
      naps := fun q => (m.naps q).filter fun nap => ¬ nap.Over (m.now + 1) }
  | wakeMask mask =>
    { m with states := fun q =>
        if m.states q = some .blocked ∧ inMask mask q = true then some .ready
        else m.states q }
  | write pid state =>
    { m with states := fun q => if q = pid then state else m.states q }

def WakesDue (step : SleepStep) (m : SleepMachine) : Prop :=
  match step with
  | tick => ∀ p nap, m.naps p = some nap → nap.Over (m.now + 1) →
      (tick.run m).states p = some .ready
  | _ => True

/-- A call of `sleep_ms` finds a free slot, no entry of its process, and a deadline that
fits 64 bits; nobody else makes an entry for a process that sleeps or writes its state. -/
def Orderly (step : SleepStep) (m : SleepMachine) : Prop :=
  match step with
  | sleepMs pid ms => (m.states pid).isSome = true →
      m.timer.sleeperCount < maxSleepers ∧ m.timer.entriesOf pid = 0 ∧
        ms.toNat + 9 < 2 ^ 64 ∧ m.timer.ticks.toNat + (ms.toNat + 9) / 10 < 2 ^ 64
  | arm pid _ => m.naps pid = none
  | tick => m.timer.ticks.toNat + 1 < 2 ^ 64
  | wakeMask mask => ∀ p, m.naps p ≠ none → inMask mask p = false
  | write pid _ => m.naps pid = none

end SleepStep

namespace SleepMachine

/-- A process whose sleep is not over is blocked and has exactly one entry, and the
sleeper count is right. -/
structure Sleeping (m : SleepMachine) : Prop where
  blocked : ∀ p nap, m.naps p = some nap → m.states p = some .blocked
  entry : ∀ p nap, m.naps p = some nap → m.timer.entriesOf p = 1
  count : m.timer.sleeperCount = m.timer.occupied

end SleepMachine

namespace Timer

/-! The table -/

variable {t : Timer}

theorem sleepMs_other (t : Timer) (pid : Nat) (ms : UInt64) {q : Nat} (hq : q ≠ pid) :
    (t.sleepMs pid ms).2.entriesOf q = t.entriesOf q ∧
      ∀ e, some e ∈ (t.sleepMs pid ms).2.sleepers → e.pid = q → some e ∈ t.sleepers := by
  refine ⟨(t.entriesOf_sleepMs pid ms q).resolve_right fun h => hq h.1, ?_⟩
  rcases t.sleepMs_cases pid ms with ⟨hsame, -⟩ | ⟨front, back, hold, hnew⟩
  · rw [hsame]
    exact fun e he _ => he
  · rw [hnew, hold]
    intro e he hpid
    rcases List.mem_append.mp he with hfront | hback
    · exact List.mem_append_left _ hfront
    · refine List.mem_append_right _ (List.mem_cons_of_mem _ ?_)
      rcases List.mem_cons.mp hback with heq | hmem
      · obtain rfl := Option.some.inj heq
        exact absurd hpid.symm hq
      · exact hmem

theorem sleepMs_own (h : t.Counted) {pid : Nat} (ms : UInt64)
    (hroom : t.sleeperCount < maxSleepers) (hnone : t.entriesOf pid = 0) :
    (t.sleepMs pid ms).2.entriesOf pid = 1 ∧
      ∀ e, some e ∈ (t.sleepMs pid ms).2.sleepers → e.pid = pid →
        e.wakeTick = t.ticks + (ms + msPerTick - 1) / msPerTick := by
  rcases t.sleepMs_cases pid ms with ⟨-, hfull⟩ | ⟨front, back, hold, hnew⟩
  · have := hfull h
    omega
  · have habsent : ∀ e, some e ∈ t.sleepers → e.pid ≠ pid := by
      intro e he hpid
      refine List.countP_eq_zero.mp hnone (some e) he ?_
      rw [Option.any_some, decide_eq_true hpid]
    rw [hnew]
    constructor
    · rw [entriesOf, hold, List.countP_append, List.countP_cons] at hnone
      rw [entriesOf, List.countP_append, List.countP_cons, Option.any_some]
      simp only [decide_true, ↓reduceIte]
      omega
    · intro e he hpid
      rcases List.mem_append.mp he with hfront | hback
      · refine absurd hpid (habsent e ?_)
        rw [hold]
        exact List.mem_append_left _ hfront
      · rcases List.mem_cons.mp hback with heq | hmem
        · rw [Option.some.inj heq]
        · refine absurd hpid (habsent e ?_)
          rw [hold]
          exact List.mem_append_right _ (List.mem_cons_of_mem _ hmem)

/-! The tick -/

theorem states_tick (t : Timer) (states : Nat → Option ProcessState) (q : Nat) :
    (t.tick wake states).2 q =
      if t.duePid q = true ∧ states q = some .blocked then some .ready else states q := by
  let f : Option ProcessState → Option ProcessState :=
    fun x => if x = some .blocked then some .ready else x
  have hf : ∀ x, f (f x) = f x := by
    intro x
    by_cases hx : x = some .blocked
    · rw [hx]
      rfl
    · simp only [f, hx, ↓reduceIte]
  have hwake : ∀ pid (states : Nat → Option ProcessState),
      wake pid states q = if q = pid then f (states q) else states q := fun pid states => by
    rw [wake, ite_and]
  rw [ite_and]
  exact wakeSlots_view (v := fun states : Nat → Option ProcessState => states q) (f := f) hf hwake

end Timer

namespace SleepMachine

open Timer SleepStep

variable {m : SleepMachine}

/-- What holds in a run of orderly steps: the ticks have not wrapped around, and a
process whose sleep is not over is blocked and has one entry, which is due at the first
tick at which the time has elapsed. -/
structure Kept (m : SleepMachine) : Prop where
  ticks : m.timer.ticks.toNat = m.now
  counted : m.timer.Counted
  begun : ∀ p nap, m.naps p = some nap → nap.start ≤ m.now
  blocked : ∀ p nap, m.naps p = some nap → m.states p = some .blocked
  entry : ∀ p nap, m.naps p = some nap → m.timer.entriesOf p = 1
  deadline : ∀ p nap, m.naps p = some nap → ∀ e, some e ∈ m.timer.sleepers → e.pid = p →
    e.wakeTick.toNat = nap.start + (nap.ms + 9) / 10

theorem Kept.sleeping (h : m.Kept) : m.Sleeping :=
  ⟨h.blocked, h.entry, h.counted.count⟩

theorem toNat_wakeTick {ticks ms : UInt64} (hms : ms.toNat + 9 < 2 ^ 64)
    (hticks : ticks.toNat + (ms.toNat + 9) / 10 < 2 ^ 64) :
    (ticks + (ms + msPerTick - 1) / msPerTick).toNat = ticks.toNat + (ms.toNat + 9) / 10 := by
  have hten : msPerTick.toNat = 10 := rfl
  have hsum : (ms + msPerTick).toNat = (ms.toNat + 10) % 2 ^ 64 := by
    rw [UInt64.toNat_add, hten]
  have hround : (ms + msPerTick - 1).toNat = ms.toNat + 9 := by
    rw [UInt64.toNat_sub, hsum, UInt64.toNat_one]
    omega
  rw [UInt64.toNat_add, UInt64.toNat_div, hround, hten, Nat.mod_eq_of_lt hticks]

/-- The process has an entry that is due at the next tick exactly when the deadline of its
sleep is reached then. -/
theorem Kept.duePid_iff (h : m.Kept) {p : Nat} {nap : Nap} (hnap : m.naps p = some nap) :
    m.timer.duePid p = true ↔ nap.start + (nap.ms + 9) / 10 ≤ (m.timer.ticks + 1).toNat := by
  have hdeadline := h.deadline p nap hnap
  constructor
  · intro hdue
    obtain ⟨slot, hslot, hany⟩ := List.any_eq_true.mp hdue
    obtain ⟨e, rfl, he⟩ := (Option.any_eq_true _ _).mp hany
    rw [Bool.and_eq_true, decide_eq_true_eq, decide_eq_true_eq] at he
    rw [← hdeadline e hslot he.1]
    exact UInt64.le_iff_toNat_le.mp he.2
  · intro hreached
    have hpos : 0 < m.timer.entriesOf p := by
      rw [h.entry p nap hnap]
      exact Nat.one_pos
    obtain ⟨slot, hslot, hany⟩ := List.countP_pos_iff.mp hpos
    obtain ⟨e, rfl, he⟩ := (Option.any_eq_true _ _).mp hany
    rw [decide_eq_true_eq] at he
    rw [← hdeadline e hslot he] at hreached
    refine List.any_eq_true.mpr ⟨some e, hslot, ?_⟩
    rw [Option.any_some, Bool.and_eq_true, decide_eq_true_eq, decide_eq_true_eq]
    exact ⟨he, UInt64.le_iff_toNat_le.mpr hreached⟩

theorem Kept.tick (h : m.Kept) (horderly : SleepStep.tick.Orderly m) :
    (SleepStep.tick.run m).Kept ∧ SleepStep.tick.WakesDue m := by
  have hticks : (m.timer.ticks + 1).toNat = m.now + 1 := by
    have hlt : m.timer.ticks.toNat + 1 < 2 ^ 64 := horderly
    rw [UInt64.toNat_add, UInt64.toNat_one, Nat.mod_eq_of_lt hlt, h.ticks]
  have hstates : ∀ q, (SleepStep.tick.run m).states q =
      if m.timer.duePid q = true ∧ m.states q = some .blocked
      then some .ready else m.states q := states_tick m.timer m.states
  have hover : ∀ p nap, m.naps p = some nap →
      (m.timer.duePid p = true ↔ nap.Over (m.now + 1)) := by
    intro p nap hnap
    rw [h.duePid_iff hnap, hticks, Nap.over_iff (Nat.lt_succ_of_le (h.begun p nap hnap))]
  have hnaps : ∀ p nap, (SleepStep.tick.run m).naps p = some nap →
      m.naps p = some nap ∧ m.timer.duePid p = false := by
    intro p nap hnap
    obtain ⟨hold, hnot⟩ := Option.filter_eq_some_iff.mp hnap
    refine ⟨hold, Bool.eq_false_iff.mpr fun hdue => ?_⟩
    exact of_decide_eq_true hnot ((hover p nap hold).mp hdue)
  refine ⟨⟨hticks, tick_counted h.counted, ?_, ?_, ?_, ?_⟩, ?_⟩
  · intro p nap hnap
    exact Nat.le_succ_of_le (h.begun p nap (hnaps p nap hnap).1)
  · intro p nap hnap
    obtain ⟨hold, hdue⟩ := hnaps p nap hnap
    rw [hstates, hdue, if_neg (by simp)]
    exact h.blocked p nap hold
  · intro p nap hnap
    obtain ⟨hold, hdue⟩ := hnaps p nap hnap
    have hentry := h.entry p nap hold
    refine (entriesOf_tick hentry.le).trans ?_
    rw [hdue, hentry]
    rfl
  · intro p nap hnap e he hpid
    have hslots : some e ∈ (m.timer.tick wake m.states).1.sleepers := he
    rw [sleepers_tick] at hslots
    obtain ⟨slot, hslot, hfilter⟩ := List.mem_map.mp hslots
    obtain ⟨rfl, -⟩ := Option.filter_eq_some_iff.mp hfilter
    exact h.deadline p nap (hnaps p nap hnap).1 e hslot hpid
  · intro p nap hnap helapsed
    rw [hstates, if_pos ⟨(hover p nap hnap).mpr helapsed, h.blocked p nap hnap⟩]

theorem Kept.arm (h : m.Kept) {pid : Nat} {ms : UInt64} (hnone : m.naps pid = none) :
    (SleepStep.arm pid ms |>.run m).Kept := by
  have hother : ∀ p nap, m.naps p = some nap → p ≠ pid := by
    rintro p nap hnap rfl
    rw [hnone] at hnap
    cases hnap
  refine ⟨?_, sleepMs_counted h.counted pid ms, h.begun, h.blocked, ?_, ?_⟩
  · exact (congrArg UInt64.toNat (sleepMs_ticks m.timer pid ms)).trans h.ticks
  · intro p nap hnap
    exact (sleepMs_other m.timer pid ms (hother p nap hnap)).1.trans (h.entry p nap hnap)
  · intro p nap hnap e he hpid
    have hold := (sleepMs_other m.timer pid ms (hother p nap hnap)).2 e he hpid
    exact h.deadline p nap hnap e hold hpid

theorem Kept.states (h : m.Kept) {states : Nat → Option ProcessState}
    (hstates : ∀ p, m.naps p ≠ none → states p = m.states p) :
    ({ m with states := states } : SleepMachine).Kept := by
  refine ⟨h.ticks, h.counted, h.begun, fun p nap hnap => ?_, h.entry, h.deadline⟩
  have hne : m.naps p ≠ none := fun hnone => by
    rw [show m.naps p = some nap from hnap] at hnone
    cases hnone
  exact (hstates p hne).trans (h.blocked p nap hnap)

theorem Kept.sleepMs (h : m.Kept) {pid : Nat} {ms : UInt64}
    (horderly : (SleepStep.sleepMs pid ms).Orderly m) :
    ((SleepStep.sleepMs pid ms).run m).Kept := by
  -- The sleeps after the call are the new one, and those of other processes.
  have hnaps : ∀ p nap, ((SleepStep.sleepMs pid ms).run m).naps p = some nap →
      p = pid ∧ (m.states p).isSome = true ∧ nap = ⟨m.now, ms.toNat⟩ ∨
        p ≠ pid ∧ m.naps p = some nap := by
    intro p nap hnap
    rw [SleepStep.run] at hnap
    dsimp only at hnap
    split at hnap
    · next hnew => exact Or.inl ⟨hnew.1, hnew.2, (Option.some.inj hnap).symm⟩
    · next hold =>
      refine Or.inr ⟨fun hp => hold ⟨hp, ?_⟩, hnap⟩
      rw [h.blocked p nap hnap]
      rfl
  refine ⟨?_, sleepMs_counted h.counted pid ms, ?_, ?_, ?_, ?_⟩
  · exact (congrArg UInt64.toNat (sleepMs_ticks m.timer pid ms)).trans h.ticks
  · intro p nap hnap
    rcases hnaps p nap hnap with ⟨-, -, rfl⟩ | ⟨-, hold⟩
    · exact Nat.le_refl _
    · exact h.begun p nap hold
  · intro p nap hnap
    rw [SleepStep.run]
    dsimp only
    rcases hnaps p nap hnap with ⟨hp, hsome, -⟩ | ⟨hp, hold⟩
    · obtain ⟨state, hstate⟩ := Option.isSome_iff_exists.mp hsome
      rw [if_pos hp, hstate, Option.map_some]
    · rw [if_neg hp]
      exact h.blocked p nap hold
  · intro p nap hnap
    rcases hnaps p nap hnap with ⟨rfl, hsome, -⟩ | ⟨hp, hold⟩
    · obtain ⟨hroom, hnone, -, -⟩ := horderly hsome
      exact (sleepMs_own h.counted ms hroom hnone).1
    · exact (sleepMs_other m.timer pid ms hp).1.trans (h.entry p nap hold)
  · intro p nap hnap e he hpid
    rcases hnaps p nap hnap with ⟨rfl, hsome, rfl⟩ | ⟨hp, hold⟩
    · obtain ⟨hroom, hnone, hms, hticks⟩ := horderly hsome
      rw [(sleepMs_own h.counted ms hroom hnone).2 e he hpid, toNat_wakeTick hms hticks, h.ticks]
    · exact h.deadline p nap hold e ((sleepMs_other m.timer pid ms hp).2 e he hpid) hpid

theorem Kept.run (h : m.Kept) (step : SleepStep) (horderly : step.Orderly m) :
    (step.run m).Kept ∧ step.WakesDue m := by
  cases step with
  | sleepMs pid ms => exact ⟨h.sleepMs horderly, trivial⟩
  | arm pid ms => exact ⟨h.arm horderly, trivial⟩
  | tick => exact h.tick horderly
  | wakeMask mask =>
    refine ⟨h.states fun p hp => if_neg fun hmask => ?_, trivial⟩
    rw [horderly p hp] at hmask
    exact Bool.false_ne_true hmask.2
  | write pid state =>
    refine ⟨h.states fun p hp => if_neg fun heq => ?_, trivial⟩
    rw [heq] at hp
    exact hp horderly

def start (states : Nat → Option ProcessState) : SleepMachine :=
  ⟨Timer.new, states, 0, fun _ => none⟩

theorem start_kept (states : Nat → Option ProcessState) : (start states).Kept where
  ticks := rfl
  counted := new_counted
  begun := fun _ _ hnap => by cases hnap
  blocked := fun _ _ hnap => by cases hnap
  entry := fun _ _ hnap => by cases hnap
  deadline := fun _ _ hnap => by cases hnap

theorem counted_run (h : m.timer.Counted) (step : SleepStep) : (step.run m).timer.Counted := by
  cases step with
  | sleepMs pid ms => exact sleepMs_counted h pid ms
  | arm pid ms => exact sleepMs_counted h pid ms
  | tick => exact tick_counted h
  | wakeMask mask => exact h
  | write pid state => exact h

end SleepMachine

open SleepMachine

theorem sleeperCount_eq_occupied (states : Nat → Option ProcessState) (steps : List SleepStep) :
    AlongRun SleepStep.run (fun m => m.timer.sleeperCount = m.timer.occupied) steps
      (start states) := by
  have hcounted : AlongRun SleepStep.run (fun m => m.timer.Counted) steps (start states) :=
    alongRun_of_eachStep (fun step m hm _ => counted_run hm step) Timer.new_counted
      (eachStep_true steps (start states))
  exact hcounted.imp fun m hm => hm.count

/-- In a run of orderly steps every process whose sleep is not over is blocked and has
exactly one entry, and every tick wakes the processes whose time has elapsed with it. -/
theorem sleeping_of_orderly (states : Nat → Option ProcessState) (steps : List SleepStep)
    (h : EachStep SleepStep.run SleepStep.Orderly steps (start states)) :
    AlongRun SleepStep.run SleepMachine.Sleeping steps (start states) ∧
      EachStep SleepStep.run SleepStep.WakesDue steps (start states) := by
  have hkept : AlongRun SleepStep.run SleepMachine.Kept steps (start states) :=
    alongRun_of_eachStep (fun step m hm hc => (hm.run step hc).1) (start_kept states) h
  exact ⟨hkept.imp fun m hm => hm.sleeping,
    eachStep_of_eachStep (fun step m hm hc => hm.run step hc) (start_kept states) h⟩

def shortNap : List SleepStep := [.sleepMs 1 15, .tick, .tick]

theorem sleeping_shortNap :
    EachStep SleepStep.run SleepStep.Orderly shortNap (start fun _ => some .running) ∧
      AlongRun SleepStep.run SleepMachine.Sleeping shortNap (start fun _ => some .running) ∧
      EachStep SleepStep.run SleepStep.WakesDue shortNap (start fun _ => some .running) := by
  have horderly : EachStep SleepStep.run SleepStep.Orderly shortNap
      (start fun _ => some .running) := by
    have hlt : ∀ ticks : UInt64, ticks.toNat < 2 → ticks.toNat + 1 < 2 ^ 64 := by omega
    refine ⟨fun _ => ⟨?_, ?_, ?_, ?_⟩, hlt _ ?_, hlt _ ?_, trivial⟩
    all_goals decide +kernel
  exact ⟨horderly, sleeping_of_orderly _ shortNap horderly⟩

def crowd : List SleepStep := (List.range 257).map fun i => .sleepMs (i + 1) 1000

def crowded : SleepMachine :=
  crowd.foldl (fun m step => step.run m) (start fun _ => some .running)

/-- The last process is blocked and has no entry that a tick could find due. -/
theorem crowd_loses_sleeper :
    crowded.naps 257 = some ⟨0, 1000⟩ ∧ crowded.states 257 = some .blocked ∧
      crowded.timer.entriesOf 257 = 0 ∧
      ¬ AlongRun SleepStep.run SleepMachine.Sleeping crowd (start fun _ => some .running) := by
  have hnap : crowded.naps 257 = some ⟨0, 1000⟩ := by decide +kernel
  have hentries : crowded.timer.entriesOf 257 = 0 := by decide +kernel
  refine ⟨hnap, by decide +kernel, hentries, fun h => ?_⟩
  have hone := h.last.entry 257 _ hnap
  rw [show crowd.foldl (fun m step => step.run m) (start fun _ => some .running) = crowded
    from rfl, hentries] at hone
  cases hone

end ZiqaKernel
