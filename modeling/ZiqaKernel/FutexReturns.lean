/-
What a call of `FUTEX_WAIT` leaves behind when it returns (`sys_futex`,
`sync/futex.rs`, `timer.rs`): entries of its process in the futex queues and in the
table of sleepers.
-/
import ZiqaKernel.SchedulerRuns
import ZiqaKernel.SchedulerResume

namespace ZiqaKernel

variable {F : Type}

/-- The kernel with the futex that each process waits for inside its call of
`FUTEX_WAIT`, if it is in one. -/
structure FutexMachine (F : Type) where
  kernel : Kernel F
  calls : Nat → Option Nat

inductive FutexStep (F : Type) where
  | spawn (fpu : F)
  | wait (addr : Nat) (valueMatches : Bool) (bitset : UInt32) (timeout : Option UInt64)
  | wake (addr count : Nat) (bitset : UInt32)
  | requeue (src dst wakeCount requeueCount : Nat)
  | timerTick
  | schedule

namespace Kernel

/-- The state and the flag `timed_out` of a process. -/
def flags (k : Kernel F) (p : Nat) : Option (ProcessState × Bool) :=
  (k.tasks p).map fun proc => (proc.state, proc.timedOut)

def places (k : Kernel F) (p addr : Nat) : Nat := (k.futexes addr).countP (·.pid = p)

def entries (k : Kernel F) (p : Nat) : Nat := k.timer.entriesOf p

/-- The rest of `sys_futex` after its call of `schedule`. -/
def endWait (k : Kernel F) (p addr : Nat) : Kernel F :=
  if (k.flags p).any (·.2) then k.futexCancel addr p else k

end Kernel

namespace FutexMachine

/-- The process that has the processor completes its call of `FUTEX_WAIT`, if it is in
one. -/
def finish (m : FutexMachine F) : FutexMachine F :=
  match m.kernel.current with
  | none => m
  | some q =>
    match m.calls q with
    | none => m
    | some addr =>
      { kernel := m.kernel.endWait q addr
        calls := fun r => if r = q then none else m.calls r }

/-- A process that is in no call of `FUTEX_WAIT` is in no futex queue, and has no
sleeper entry. -/
def NoTrace (m : FutexMachine F) : Prop :=
  ∀ p, m.calls p = none → (∀ addr, m.kernel.places p addr = 0) ∧ m.kernel.entries p = 0

end FutexMachine

namespace FutexStep

open FutexMachine

def run (step : FutexStep F) (m : FutexMachine F) : FutexMachine F :=
  match step with
  | spawn fpu => { m with kernel := m.kernel.spawn fpu }
  | wait addr valueMatches bitset timeout =>
    match m.kernel.current with
    | none => m
    | some p =>
      if valueMatches then
        finish
          { kernel := (m.kernel.futexWait addr bitset timeout).schedule.2
            calls := fun r => if r = p then some addr else m.calls r }
      else m
  | wake addr count bitset => { m with kernel := (m.kernel.futexWake addr count bitset).2 }
  | requeue src dst wakeCount requeueCount =>
    { m with kernel := (m.kernel.futexRequeue src dst wakeCount requeueCount).2 }
  | timerTick => { m with kernel := m.kernel.timerTick }
  | schedule => finish { m with kernel := m.kernel.schedule.2 }

/-- The step waits only while another process is ready, wakes only processes without a
sleeper entry, and moves to another queue only processes that neither have one nor have
timed out. -/
def Careful (step : FutexStep F) (m : FutexMachine F) : Prop :=
  match step with
  | wait _ valueMatches _ _ => valueMatches = true →
      ∃ q ∈ m.kernel.ready, m.kernel.current ≠ some q ∧ m.kernel.stateOf q = some .ready
  | wake addr count bitset =>
    ∀ p ∈ m.kernel.wakenBy count bitset (m.kernel.futexes addr), m.kernel.entries p = 0
  | requeue src dst wakeCount requeueCount =>
    (∀ w ∈ (m.kernel.futexes src).take wakeCount, m.kernel.entries w.pid = 0) ∧ (src ≠ dst →
        ∀ w ∈ ((m.kernel.futexes src).drop wakeCount).take requeueCount,
          m.kernel.entries w.pid = 0 ∧ (m.kernel.flags w.pid).any (·.2) = false)
  | _ => True

end FutexStep

/-! What the operations do to one process -/

namespace Kernel

variable {k k' : Kernel F} {p q : Nat}

structure SameFor (q : Nat) (k k' : Kernel F) : Prop where
  flags : k'.flags q = k.flags q
  places : ∀ addr, k'.places q addr = k.places q addr
  entries : k'.entries q = k.entries q

theorem stateOf_eq_flags (k : Kernel F) (q : Nat) : k.stateOf q = (k.flags q).map Prod.fst := by
  rw [stateOf, flags, Option.map_map]
  rfl

section

variable {S : Nat → Prop} {f : Process F → Process F} (h : Writes S f k k')
include h

theorem Writes.flags_kept (hq : ¬ S q) : k'.flags q = k.flags q := by
  rw [flags, h.kept q hq, flags]

theorem Writes.flags_written (hq : S q) {g : ProcessState × Bool → ProcessState × Bool}
    (hf : ∀ proc, ((f proc).state, (f proc).timedOut) = g (proc.state, proc.timedOut)) :
    k'.flags q = (k.flags q).map g := by
  rw [flags, h.written q hq, flags, Option.map_map, Option.map_map]
  exact congrArg (fun h => (k.tasks q).map h) (funext hf)

theorem Writes.isSome_flags (q : Nat) : (k'.flags q).isSome = (k.flags q).isSome := by
  by_cases hq : S q
  · simp [flags, h.written q hq]
  · rw [h.flags_kept hq]

end

/-- Of the waiters of a process that exists, `wake` takes out of the queue as many as it
wakes. -/
theorem wakeLoop_count (k : Kernel F) (count : Nat) (bitset : UInt32)
    (waiters : List Waiter) (hq : (k.tasks q).isSome = true) :
    (k.wakeLoop count bitset waiters).2.1.countP (·.pid = q) +
        (k.wakenBy count bitset waiters).count q = waiters.countP (·.pid = q) := by
  obtain ⟨seen, rest, h⟩ := k.wakeSplit_exists count bitset waiters
  have hseen : (seen.filter fun w => w.bitset &&& bitset = 0).countP (·.pid = q) +
      ((k.wakeable bitset seen).map Waiter.pid).count q = seen.countP (·.pid = q) := by
    clear h
    induction seen with
    | nil => rfl
    | cons w seen ih =>
      rw [List.countP_cons, ← ih, wakeable, wakeable, List.filter_cons, List.filter_cons]
      by_cases hbits : w.bitset &&& bitset = 0
      · simp [hbits, List.countP_cons]
        omega
      · by_cases hw : w.pid = q
        · simp [hbits, hw, hq]
          omega
        · by_cases hsome : (k.tasks w.pid).isSome
          · simp [hbits, hw, hsome]
          · simp [hbits, hw, hsome]
  rw [h.kept, h.wakenBy_eq, h.split, List.countP_append, List.countP_append, ← hseen]
  omega

theorem wakeLoop_sublist (k : Kernel F) (count : Nat) (bitset : UInt32)
    (waiters : List Waiter) : (k.wakeLoop count bitset waiters).2.1.Sublist waiters := by
  obtain ⟨seen, rest, h⟩ := k.wakeSplit_exists count bitset waiters
  rw [h.kept, h.split]
  exact List.filter_sublist.append_right rest

theorem places_futexRequeue (k : Kernel F) (src dst wakeCount requeueCount q a : Nat) :
    (k.futexRequeue src dst wakeCount requeueCount).2.places q a =
      (if a = src then (((k.futexes src).drop wakeCount).drop requeueCount).countP (·.pid = q)
        else k.places q a) +
      if a = dst then (((k.futexes src).drop wakeCount).take requeueCount).countP (·.pid = q)
        else 0 := by
  rw [places, futexRequeue_eq]
  dsimp only
  rw [(foldl_unblock_tables _ k).1]
  by_cases hdst : a = dst
  · rw [if_pos hdst, if_pos hdst, List.countP_append, ← hdst]
    split
    · rfl
    · rfl
  · rw [if_neg hdst, if_neg hdst, Nat.add_zero]
    split
    · rfl
    · rfl

/-! The timer -/

theorem futexes_timerTick (k : Kernel F) : k.timerTick.futexes = k.futexes := by
  refine Timer.wakeSlots_keeps (P := fun k' : Kernel F => k'.futexes = k.futexes)
    (fun p k' hk => ?_) rfl
  unfold wakeSleeper
  split
  · exact hk
  · split
    · exact hk
    · exact hk

theorem entries_timerTick (h : k.entries q ≤ 1) :
    k.timerTick.entries q = if k.timer.duePid q then 0 else k.entries q :=
  Timer.entriesOf_tick h

variable {addr : Nat}

theorem places_futexWait (hcurrent : k.current = some p) (addr : Nat) (bitset : UInt32)
    (timeout : Option UInt64) (q a : Nat) : (k.futexWait addr bitset timeout).places q a =
      k.places q a + if q = p ∧ a = addr then 1 else 0 := by
  have hqueue : (k.futexWait addr bitset timeout).futexes a =
      if a = addr then k.futexes a ++ [Waiter.mk p bitset] else k.futexes a := by
    rw [futexWait, hcurrent]
    cases timeout <;> rfl
  rw [places, places, hqueue]
  by_cases ha : a = addr
  · rw [if_pos ha, List.countP_append, List.countP_singleton]
    simp only [decide_eq_true_eq, ha, and_true]
    rw [Nat.add_left_cancel_iff]
    exact if_congr eq_comm rfl rfl
  · simp only [ha, ↓reduceIte, and_false, Nat.add_zero]

theorem entries_futexWait (hcurrent : k.current = some p) (addr : Nat) (bitset : UInt32)
    (timeout : Option UInt64) (q : Nat) :
    (k.futexWait addr bitset timeout).entries q = k.entries q ∨
      q = p ∧ (k.futexWait addr bitset timeout).entries q = k.entries q + 1 := by
  rw [futexWait, hcurrent]
  cases timeout with
  | none => exact Or.inl rfl
  | some ms => exact k.timer.entriesOf_sleepMs p ms q

/-! The switch -/

theorem leave_tables (k : Kernel F) (p : Nat) :
    (k.leave p).futexes = k.futexes ∧ (k.leave p).timer = k.timer := by
  unfold leave
  split
  · exact ⟨rfl, rfl⟩
  · dsimp only
    split <;> exact ⟨rfl, rfl⟩

theorem scheduleLoop_tables (k : Kernel F) (queue : List Nat) :
    (k.scheduleLoop queue).2.futexes = k.futexes ∧
      (k.scheduleLoop queue).2.timer = k.timer := by
  induction queue with
  | nil => exact ⟨rfl, rfl⟩
  | cons q rest ih =>
    rw [scheduleLoop]
    split
    · exact ih
    · split_ifs
      · exact ⟨rfl, rfl⟩
      · unfold switchTo
        dsimp only
        split
        · exact ⟨rfl, rfl⟩
        · exact leave_tables _ _
      · exact ih

/-- The state of a process after a switch from `p` to `q`. -/
def switchState (p q r : Nat) (s : ProcessState) : ProcessState :=
  let s' := if r = q then .running else s
  if r = p then (if s' = .running then .ready else s') else s'

theorem flags_switchTo (hcurrent : k.current = some p) (new : Process F) (r : Nat) :
    (k.switchTo q new).flags r = (k.flags r).map fun f => (switchState p q r f.1, f.2) := by
  rw [flags, tasks_switchTo, flags, setState, tasks_modify, hcurrent]
  simp only [Option.some.injEq, eq_comm (a := p)]
  cases k.tasks r with
  | none => split <;> split <;> rfl
  | some proc =>
    unfold switchState
    split
    · split
      · rfl
      · rfl
    · split
      · rfl
      · rfl

theorem schedule_tables (k : Kernel F) (r : Nat) :
    (∀ addr, k.schedule.2.places r addr = k.places r addr) ∧
      k.schedule.2.entries r = k.entries r := by
  obtain ⟨hfutexes, htimer⟩ := k.scheduleLoop_tables k.ready
  refine ⟨fun addr => ?_, ?_⟩
  · rw [places, places, schedule, hfutexes]
  · rw [entries, entries, schedule, htimer]

/-! The end of a call -/

theorem endWait_frame (k : Kernel F) (p addr : Nat) :
    (k.endWait p addr).tasks = k.tasks ∧ (k.endWait p addr).current = k.current ∧
      (k.endWait p addr).nextPid = k.nextPid ∧ (k.endWait p addr).timer = k.timer := by
  unfold endWait
  split
  · exact ⟨rfl, rfl, rfl, rfl⟩
  · exact ⟨rfl, rfl, rfl, rfl⟩

theorem endWait_other (k : Kernel F) (addr : Nat) (h : q ≠ p) : SameFor q k (k.endWait p addr) := by
  obtain ⟨htasks, -, -, htimer⟩ := k.endWait_frame p addr
  refine ⟨by rw [flags, flags, htasks], fun a => ?_, by rw [entries, entries, htimer]⟩
  unfold endWait
  split
  · rw [places, places, futexCancel]
    dsimp only
    split
    · rw [List.countP_filter]
      refine List.countP_congr fun w _ => ?_
      simp only [Bool.and_eq_true, decide_eq_true_eq, ne_eq]
      exact ⟨fun hw => hw.1, fun hw => ⟨hw, fun hp => h (hw.symm.trans hp)⟩⟩
    · rfl
  · rfl

theorem places_futexCancel (k : Kernel F) (p addr a : Nat) :
    (k.futexCancel addr p).places p a = if a = addr then 0 else k.places p a := by
  rw [places, futexCancel]
  dsimp only
  split
  · rw [List.countP_filter, List.countP_eq_zero]
    intro w _
    simp
  · rfl

/-! The stages of a call -/

/-- The process stands once in the queue of the futex named, and in no other. -/
def Located (k : Kernel F) (q : Nat) (place : Option Nat) : Prop :=
  ∀ addr, k.places q addr = if some addr = place then 1 else 0

/-- Inside a call on the futex `addr`: blocked, with an entry only while the process is
in the queue of `addr`. -/
@[mk_iff]
structure Waiting (k : Kernel F) (q addr : Nat) : Prop where
  flags : k.flags q = some (.blocked, false)
  located : ∃ a, k.Located q (some a) ∧ (k.entries q ≠ 0 → a = addr)
  entries : k.entries q ≤ 1

/-- The entry has expired, but the process has not had the processor since. -/
@[mk_iff]
structure Expired (k : Kernel F) (q addr : Nat) : Prop where
  flags : k.flags q = some (.ready, true)
  located : k.Located q (some addr)
  entries : k.entries q = 0

@[mk_iff]
structure Woken (k : Kernel F) (q : Nat) : Prop where
  flags : ∃ timedOut, k.flags q = some (.ready, timedOut)
  located : k.Located q none
  entries : k.entries q = 0

/-- Where a process is in its call of `FUTEX_WAIT`, if it is in one. -/
def Stage (k : Kernel F) (q : Nat) : Option Nat → Prop
  | none => k.Located q none ∧ k.entries q = 0
  | some addr => k.Waiting q addr ∨ k.Expired q addr ∨ k.Woken q

theorem SameFor.stage {call : Option Nat} (h : SameFor q k k') (hk : k.Stage q call) :
    k'.Stage q call := by
  cases call <;> simpa only [Stage, waiting_iff, expired_iff, woken_iff, Located, h.flags,
    h.places, h.entries] using hk

/-- Where a call leaves a process that is in no queue, or has timed out in the queue of
the call. -/
theorem endWait_located
    (h : k.Located p none ∨ k.Located p (some addr) ∧ (k.flags p).any (·.2) = true) :
    (k.endWait p addr).Located p none := by
  intro a
  have hcancel := k.places_futexCancel p addr a
  unfold endWait
  rcases h with hnone | ⟨hsome, htimed⟩
  · split
    · rw [hcancel, hnone a]
      split <;> rfl
    · exact hnone a
  · rw [if_pos htimed, hcancel, hsome a]
    by_cases ha : a = addr
    · simp [ha]
    · simp [ha]

theorem isSome_flags (k : Kernel F) (q : Nat) : (k.flags q).isSome = (k.tasks q).isSome :=
  Option.isSome_map

theorem Stage.isSome (h : k.Stage q (some addr)) : (k.flags q).isSome = true := by
  rcases h with hwaiting | hexpired | hwoken
  · rw [hwaiting.flags]
    rfl
  · rw [hexpired.flags]
    rfl
  · obtain ⟨timedOut, hflags⟩ := hwoken.flags
    rw [hflags]
    rfl

theorem Stage.places_le {call : Option Nat} (h : k.Stage q call) (a : Nat) : k.places q a ≤ 1 := by
  have hlocated : ∃ place, k.Located q place := by
    cases call with
    | none => exact ⟨none, h.1⟩
    | some addr =>
      rcases h with hwaiting | hexpired | hwoken
      · exact hwaiting.located.imp' some fun _ ha => ha.1
      · exact ⟨some addr, hexpired.located⟩
      · exact ⟨none, hwoken.located⟩
  obtain ⟨place, hplace⟩ := hlocated
  rw [hplace a]
  split <;> omega

theorem Stage.of_entry {call : Option Nat} (h : k.Stage q call) (hpos : 0 < k.entries q) :
    ∃ addr, call = some addr ∧ k.Waiting q addr := by
  cases call with
  | none =>
    have hzero := h.2
    omega
  | some addr =>
    rcases h with hwaiting | hexpired | hwoken
    · exact ⟨addr, rfl, hwaiting⟩
    · have hzero := hexpired.entries
      omega
    · have hzero := hwoken.entries
      omega

theorem Stage.entries_le {call : Option Nat} (h : k.Stage q call) : k.entries q ≤ 1 := by
  rcases Nat.eq_zero_or_pos (k.entries q) with hzero | hpos
  · omega
  · obtain ⟨addr, -, hwaiting⟩ := h.of_entry hpos
    exact hwaiting.entries

/-- A process that is ready has no entry, and is in a queue only if it has timed out
there. -/
theorem Stage.of_ready {call : Option Nat} {timedOut : Bool} (h : k.Stage q call)
    (hready : k.flags q = some (.ready, timedOut)) : k.entries q = 0 ∧ (k.Located q none ∨
        ∃ addr, call = some addr ∧ k.Located q (some addr) ∧ timedOut = true) := by
  cases call with
  | none => exact ⟨h.2, Or.inl h.1⟩
  | some addr =>
    rcases h with hwaiting | hexpired | hwoken
    · rw [hwaiting.flags] at hready
      cases hready
    · rw [hexpired.flags, Option.some.injEq, Prod.mk.injEq] at hready
      exact ⟨hexpired.entries, Or.inr ⟨addr, rfl, hexpired.located, hready.2.symm⟩⟩
    · exact ⟨hwoken.entries, Or.inl hwoken.located⟩

theorem Stage.located_of_place {a : Nat} (h : k.Stage q (some addr))
    (ha : k.places q a = 1) : k.Located q (some a) := by
  have hplace : ∀ place, k.Located q place → place = some a := by
    intro place hplace
    have hcount := hplace a
    rw [ha] at hcount
    split at hcount
    · next heq => exact heq.symm
    · cases hcount
  rcases h with hwaiting | hexpired | hwoken
  · obtain ⟨b, hb, -⟩ := hwaiting.located
    exact hplace _ hb ▸ hb
  · exact hplace _ hexpired.located ▸ hexpired.located
  · exact hplace _ hwoken.located ▸ hwoken.located

/-- Of the places of a process in the queue of `src`, `left` stay, `v` are moved to `dst` and the
others are taken out to wake it.  A process that is woken has no entry; one that is moved to
another queue has neither an entry nor timed out. -/
theorem Stage.requeued {call : Option Nat} (h : k.Stage q call) {S : Nat → Prop}
    (hwrites : Writes S (inState .ready) k k') (src dst : Nat) {left v : Nat}
    (hle : left + v ≤ k.places q src)
    (hw : (k.flags q).isSome = true → (S q ↔ left + v < k.places q src))
    (hplaces : ∀ a, k'.places q a =
      (if a = src then left else k.places q a) + if a = dst then v else 0)
    (hentries : k'.entries q = k.entries q) (hwoken : S q → k.entries q = 0)
    (hmoved : src ≠ dst → 0 < v → k.entries q = 0 ∧ (k.flags q).any (·.2) = false) :
    k'.Stage q call := by
  have hone := h.places_le src
  cases call with
  | none =>
    have hzero : ∀ a, k.places q a = 0 := h.1
    have hsrc := hzero src
    refine ⟨fun a => ?_, hentries.trans h.2⟩
    rw [hplaces a, hzero a]
    simp only [reduceCtorEq, ↓reduceIte]
    split <;> split <;> omega
  | some addr =>
    have hplace (hpos : 0 < k.places q src) (b : Nat) :
        k.places q b = if b = src then 1 else 0 := by
      simpa using h.located_of_place (a := src) (by omega) b
    by_cases hwake : S q
    · have hpos := (hw h.isSome).mp hwake
      refine .inr (.inr ⟨?_, fun b => ?_, hentries.trans (hwoken hwake)⟩)
      · obtain ⟨f, hf⟩ := Option.isSome_iff_exists.mp h.isSome
        refine ⟨f.2, ?_⟩
        rw [hwrites.flags_written hwake (g := fun x => (.ready, x.2)) fun _ => rfl, hf]
        rfl
      · rw [hplaces b, hplace (by omega) b]
        simp only [reduceCtorEq, ↓reduceIte]
        split <;> split <;> omega
    · have hall := mt (hw h.isSome).mpr hwake
      have hflags := hwrites.flags_kept hwake
      by_cases hmove : src ≠ dst ∧ 0 < v
      · obtain ⟨hzero, htimed⟩ := hmoved hmove.1 hmove.2
        have hlocated : k'.Located q (some dst) := fun b => by
          rw [hplaces b, hplace (by omega) b]
          simp only [Option.some.injEq]
          split <;> split <;> omega
        rcases h with hwaiting | hexpired | hwoken
        · exact .inl ⟨hflags.trans hwaiting.flags,
            ⟨dst, hlocated, fun hne => absurd (hentries.trans hzero) hne⟩, by omega⟩
        · rw [hexpired.flags] at htimed
          cases htimed
        · have hnowhere : k.places q src = 0 := hwoken.located src
          omega
      · refine SameFor.stage ⟨hflags, fun a => ?_, hentries⟩ h
        rw [hplaces a]
        split_ifs <;> grind

end Kernel

namespace FutexMachine

open Kernel

variable {m : FutexMachine F}

/-- The process that has the processor is in no call, and every other one is at some
stage of its call. -/
structure Staged (m : FutexMachine F) : Prop where
  current : ∃ p, m.kernel.current = some p ∧ m.calls p = none ∧ (m.kernel.flags p).isSome = true
  unused : ∀ q, m.kernel.nextPid ≤ q → (m.kernel.flags q).isSome = false
  stage : ∀ q, m.kernel.Stage q (m.calls q)

theorem Staged.noTrace (h : m.Staged) : m.NoTrace := by
  intro p hp
  have hstage := h.stage p
  rw [hp] at hstage
  exact ⟨fun addr => hstage.1 addr, hstage.2⟩

theorem Staged.update (h : m.Staged) {k : Kernel F} {S : Nat → Prop} {f : Process F → Process F}
    (hwrites : Writes S f m.kernel k) (hstage : ∀ q, k.Stage q (m.calls q)) :
    ({ m with kernel := k } : FutexMachine F).Staged := by
  obtain ⟨p, hp, hcall, hproc⟩ := h.current
  have hsome := hwrites.isSome_flags
  refine ⟨⟨p, hwrites.current.trans hp, hcall, (hsome p).trans hproc⟩, fun q hq => ?_, hstage⟩
  exact (hsome q).trans (h.unused q (hwrites.nextPid ▸ hq))

theorem Staged.spawn (h : m.Staged) (fpu : F) :
    ({ m with kernel := m.kernel.spawn fpu } : FutexMachine F).Staged := by
  have hother : ∀ q, q ≠ m.kernel.nextPid → (m.kernel.spawn fpu).flags q = m.kernel.flags q :=
    fun q hq => congrArg (Option.map _) (if_neg hq)
  have hused : ∀ q, (m.kernel.flags q).isSome = true → q ≠ m.kernel.nextPid := by
    rintro q hq rfl
    rw [h.unused _ (Nat.le_refl _)] at hq
    cases hq
  obtain ⟨p, hp, hcall, hproc⟩ := h.current
  refine ⟨⟨p, hp, hcall, ?_⟩, fun q hq => ?_, fun q => ?_⟩
  · rw [hother p (hused p hproc)]
    exact hproc
  · have hlt : m.kernel.nextPid + 1 ≤ q := hq
    rw [hother q (by omega)]
    exact h.unused q (by omega)
  · have hstage := h.stage q
    dsimp only
    cases hcall : m.calls q with
    | none =>
      rw [hcall] at hstage
      exact hstage
    | some addr =>
      rw [hcall] at hstage
      have hsame : SameFor q m.kernel (m.kernel.spawn fpu) :=
        ⟨hother q (hused q hstage.isSome), fun _ => rfl, rfl⟩
      exact hsame.stage hstage

theorem Staged.timerTick (h : m.Staged) :
    ({ m with kernel := m.kernel.timerTick } : FutexMachine F).Staged := by
  have hwrites := writes_timerTick m.kernel
  have hplaces : ∀ q addr, m.kernel.timerTick.places q addr = m.kernel.places q addr :=
    fun q addr => by rw [places, places, futexes_timerTick]
  refine h.update hwrites fun q => ?_
  have hstage := h.stage q
  by_cases hdue : m.kernel.timer.duePid q = true
  · have hpos : 0 < m.kernel.entries q := Timer.entriesOf_pos_of_duePid hdue
    -- Only a process that waits has an entry.
    obtain ⟨addr, hcall, hwaiting⟩ := hstage.of_entry hpos
    obtain ⟨a, hlocated, harmed⟩ := hwaiting.located
    rw [hcall]
    refine Or.inr (Or.inl ⟨?_, fun b => ?_, ?_⟩)
    · rw [hwrites.flags_written hdue (g := fun x => if x.1 = .blocked then (.ready, true) else x),
        hwaiting.flags]
      · rfl
      · intro proc
        rw [timeOut]
        split <;> rfl
    · rw [hplaces q b, ← harmed (by omega)]
      exact hlocated b
    · rw [entries_timerTick hwaiting.entries, if_pos hdue]
  · refine SameFor.stage ⟨hwrites.flags_kept hdue, hplaces q, ?_⟩ hstage
    rw [entries_timerTick hstage.entries_le, if_neg hdue]

theorem staged_finish {k : Kernel F} {calls : Nat → Option Nat} {q : Nat}
    (hcurrent : k.current = some q) (hsome : (k.flags q).isSome = true)
    (hunused : ∀ r, k.nextPid ≤ r → (k.flags r).isSome = false)
    (hothers : ∀ r, r ≠ q → k.Stage r (calls r)) (hentries : k.entries q = 0)
    (hlocated : k.Located q none ∨
      ∃ addr, calls q = some addr ∧ k.Located q (some addr) ∧ (k.flags q).any (·.2) = true) :
    (finish { kernel := k, calls := calls }).Staged := by
  unfold finish
  dsimp only
  rw [hcurrent]
  dsimp only
  split
  · next hcall =>
    refine ⟨⟨q, hcurrent, hcall, hsome⟩, hunused, fun r => ?_⟩
    dsimp only
    by_cases hr : r = q
    · rw [hr, hcall]
      refine ⟨hlocated.resolve_right ?_, hentries⟩
      rintro ⟨addr, haddr, -⟩
      rw [hcall] at haddr
      cases haddr
    · exact hothers r hr
  · next addr hcall =>
    obtain ⟨htasks, hcurrent', hnext, htimer⟩ := k.endWait_frame q addr
    have hflags : ∀ r, (k.endWait q addr).flags r = k.flags r := fun r => by
      rw [flags, flags, htasks]
    refine ⟨⟨q, hcurrent'.trans hcurrent, if_pos rfl, by rwa [hflags]⟩, ?_, ?_⟩
    · intro r hr
      rw [hflags]
      exact hunused r (hnext ▸ hr)
    · intro r
      dsimp only
      split
      · next hr =>
        rw [hr]
        refine ⟨endWait_located (hlocated.imp_right ?_), by rwa [entries, htimer]⟩
        rintro ⟨addr', haddr, hplace⟩
        rw [hcall, Option.some.injEq] at haddr
        rwa [haddr]
      · next hr => exact (endWait_other k addr hr).stage (hothers r hr)

/-- A call of `schedule` by `p`, which may be in a call: then it is blocked, and there
has to be a process to switch to. -/
theorem staged_schedule {k : Kernel F} {calls : Nat → Option Nat} {p : Nat}
    (hcurrent : k.current = some p) (hsome : (k.flags p).isSome = true)
    (hunused : ∀ r, k.nextPid ≤ r → (k.flags r).isSome = false)
    (hstage : ∀ r, k.Stage r (calls r))
    (hself : calls p = none ∨ k.stateOf p = some .blocked ∧ k.firstReady k.ready ≠ none) :
    (finish { kernel := k.schedule.2, calls := calls }).Staged := by
  have htables := k.schedule_tables
  rcases k.scheduleLoop_cases k.ready with hreturned | ⟨q, new, hswitched⟩
  · have hcall : calls p = none := by
      refine hself.resolve_right ?_
      rintro ⟨hblocked, hready⟩
      rcases hreturned.cause with ⟨p', hp', hrunning⟩ | hnone
      · rw [hcurrent, Option.some.injEq] at hp'
        rw [← hp', hblocked] at hrunning
        cases hrunning
      · exact hready hnone
    have htasks : k.schedule.2.tasks = k.tasks := hreturned.tasks
    have hsame : ∀ r, SameFor r k k.schedule.2 := fun r =>
      ⟨by rw [flags, flags, htasks], (htables r).1, (htables r).2⟩
    have hidle := (hsame p).stage (hstage p)
    rw [hcall] at hidle
    refine staged_finish (hreturned.current.trans hcurrent) ?_ (fun r hr => ?_)
      (fun r _ => (hsame r).stage (hstage r)) hidle.2 (Or.inl hidle.1)
    · rwa [(hsame p).flags]
    · rw [(hsame r).flags]
      exact hunused r (hreturned.nextPid ▸ hr)
  · obtain ⟨rest, hrun⟩ := hswitched.result
    have hflags : ∀ r, k.schedule.2.flags r =
        (k.flags r).map fun f => (switchState p q r f.1, f.2) := fun r => by
      rw [schedule, hrun]
      exact flags_switchTo (k := { k with ready := rest }) hcurrent new r
    have hready : ∃ timedOut, k.flags q = some (.ready, timedOut) := by
      have hstate : k.stateOf q = some .ready := by
        simpa using List.find?_some hswitched.next
      rw [stateOf, hswitched.task, Option.map_some, Option.some.injEq] at hstate
      exact ⟨new.timedOut, by rw [flags, hswitched.task, Option.map_some, hstate]⟩
    obtain ⟨timedOut, hready⟩ := hready
    have hlocated : ∀ r place, k.Located r place → k.schedule.2.Located r place :=
      fun r place h addr => ((htables r).1 addr).trans (h addr)
    obtain ⟨hcurrent', -, hnext⟩ := switchTo_frame { k with ready := rest } q new
    have hrun' : k.schedule.2 = { k with ready := rest }.switchTo q new := by
      rw [schedule, hrun]
    have hflagsq : k.schedule.2.flags q = some (switchState p q q .ready, timedOut) := by
      rw [hflags, hready, Option.map_some]
    refine staged_finish (q := q) (by rw [hrun', hcurrent']) ?_ (fun r hr => ?_)
      (fun r hr => ?_) ?_ ?_
    · rw [hflagsq]
      rfl
    · rw [hrun', hnext] at hr
      rw [hflags, Option.isSome_map]
      exact hunused r hr
    · cases hcall : calls r with
      | none =>
        have hidle := hstage r
        rw [hcall] at hidle
        exact ⟨hlocated r none hidle.1, (htables r).2.trans hidle.2⟩
      | some addr =>
        have hkept : k.schedule.2.flags r = k.flags r := by
          rw [hflags]
          by_cases hp : r = p
          · have hblocked := (hself.resolve_left fun h => by rw [← hp, hcall] at h; cases h).1
            obtain ⟨proc, hproc, hstate⟩ := Option.map_eq_some_iff.mp hblocked
            rw [hp, flags, hproc, Option.map_some, Option.map_some, hstate]
            simp [switchState, hp ▸ hr]
          · have hsame : (fun f : ProcessState × Bool => (switchState p q r f.1, f.2)) = id := by
              funext f
              simp [switchState, hp, hr]
            rw [hsame, Option.map_id_fun, id]
        have hsame : SameFor r k k.schedule.2 := ⟨hkept, (htables r).1, (htables r).2⟩
        exact hsame.stage (hcall ▸ hstage r)
    · exact (htables q).2.trans ((hstage q).of_ready hready).1
    · refine ((hstage q).of_ready hready).2.imp (hlocated q none) ?_
      rintro ⟨addr, hcall, hplace, rfl⟩
      exact ⟨addr, hcall, hlocated q _ hplace, by rw [hflagsq]; rfl⟩

theorem Staged.schedule (h : m.Staged) :
    (finish { m with kernel := m.kernel.schedule.2 }).Staged := by
  obtain ⟨p, hcurrent, hcall, hsome⟩ := h.current
  exact staged_schedule hcurrent hsome h.unused h.stage (Or.inl hcall)

theorem Staged.wait (h : m.Staged) (addr : Nat) (valueMatches : Bool) (bitset : UInt32)
    (timeout : Option UInt64)
    (hcareful : (FutexStep.wait addr valueMatches bitset timeout).Careful m) :
    ((FutexStep.wait addr valueMatches bitset timeout).run m).Staged := by
  obtain ⟨p, hcurrent, hcall, hsome⟩ := h.current
  rw [FutexStep.run, hcurrent]
  dsimp only
  split
  · next hmatches =>
    have hidle := h.stage p
    rw [hcall] at hidle
    have hwrites := writes_futexWait m.kernel addr bitset timeout
    have hplaces := places_futexWait hcurrent addr bitset timeout
    have hentries := entries_futexWait hcurrent addr bitset timeout
    have hwaiting : (m.kernel.futexWait addr bitset timeout).Waiting p addr := by
      obtain ⟨x, hx⟩ := Option.isSome_iff_exists.mp hsome
      refine ⟨?_, ⟨addr, fun a => ?_, fun _ => rfl⟩, ?_⟩
      · rw [hwrites.flags_written hcurrent (g := fun _ => (.blocked, false)) fun _ => rfl, hx]
        rfl
      · rw [hplaces p a, hidle.1 a]
        simp
      · have hzero := hidle.2
        have hentry := hentries p
        omega
    have hothers (r : Nat) (hr : r ≠ p) :
        SameFor r m.kernel (m.kernel.futexWait addr bitset timeout) := by
      refine ⟨hwrites.flags_kept fun h => hr (Option.some.inj (h.symm.trans hcurrent)),
        fun a => ?_, (hentries r).resolve_right fun he => hr he.1⟩
      rw [hplaces r a, if_neg fun ha => hr ha.1, Nat.add_zero]
    refine staged_schedule (hwrites.current.trans hcurrent) ((hwrites.isSome_flags p).trans hsome)
      (fun r hr => (hwrites.isSome_flags r).trans (h.unused r (hwrites.nextPid ▸ hr)))
      (fun r => ?_) ?_
    · split
      · next hr =>
        rw [hr]
        exact Or.inl hwaiting
      · next hr => exact (hothers r hr).stage (h.stage r)
    · refine Or.inr ⟨?_, fun hnone => ?_⟩
      · rw [stateOf_eq_flags, hwaiting.flags]
        rfl
      · obtain ⟨q, hq, hne, hready⟩ := hcareful hmatches
        have hqp : q ≠ p := fun heq => hne (hcurrent.trans (by rw [heq]))
        refine List.find?_eq_none.mp hnone q (hwrites.ready q hq) ?_
        rw [decide_eq_true_eq, stateOf_eq_flags, (hothers q hqp).flags, ← stateOf_eq_flags]
        exact hready
  · exact h

theorem Staged.wake (h : m.Staged) (addr count : Nat) (bitset : UInt32)
    (hcareful : (FutexStep.wake addr count bitset).Careful m) :
    ({ m with kernel := (m.kernel.futexWake addr count bitset).2 } : FutexMachine F).Staged := by
  have hwrites := writes_futexWake m.kernel addr count bitset
  obtain ⟨hfutexes, htimer, -⟩ := foldl_unblock_tables
    (m.kernel.wakenBy count bitset (m.kernel.futexes addr)) m.kernel
  rw [← wakeLoop_eq] at hfutexes htimer
  have hplaces : ∀ q a, (m.kernel.futexWake addr count bitset).2.places q a =
      (if a = addr then (m.kernel.wakeLoop count bitset (m.kernel.futexes addr)).2.1.countP
        (·.pid = q) else m.kernel.places q a) + if a = addr then 0 else 0 := by
    intro q a
    change List.countP _ (if a = addr then (m.kernel.wakeLoop count bitset
      (m.kernel.futexes addr)).2.1 else (m.kernel.wakeLoop count bitset
      (m.kernel.futexes addr)).2.2.futexes a) = _
    rw [hfutexes]
    split
    · rfl
    · rfl
  refine h.update hwrites fun q => ?_
  have hle := (m.kernel.wakeLoop_sublist count bitset (m.kernel.futexes addr)).countP_le
    (p := fun w => decide (w.pid = q))
  refine (h.stage q).requeued hwrites addr addr (by exact hle) (fun hsome => ?_) (hplaces q)
    (congrArg (Timer.entriesOf · q) htimer) (hcareful q) fun hne => absurd rfl hne
  have hcount := m.kernel.wakeLoop_count count bitset (m.kernel.futexes addr)
    ((isSome_flags _ q).symm.trans hsome)
  rw [← List.count_pos_iff, places]
  omega

theorem Staged.requeue (h : m.Staged) (src dst wakeCount requeueCount : Nat)
    (hcareful : (FutexStep.requeue src dst wakeCount requeueCount).Careful m) :
    ({ m with kernel := (m.kernel.futexRequeue src dst wakeCount requeueCount).2 } :
      FutexMachine F).Staged := by
  have hwrites := writes_futexRequeue m.kernel src dst wakeCount requeueCount
  have hplaces := m.kernel.places_futexRequeue src dst wakeCount requeueCount
  have htimer : (m.kernel.futexRequeue src dst wakeCount requeueCount).2.timer =
      m.kernel.timer := by
    rw [futexRequeue_eq]
    exact (foldl_unblock_tables _ m.kernel).2.1
  -- The waiters of the first queue are woken, moved or kept.
  have hsplit : ∀ q, m.kernel.places q src =
      ((m.kernel.futexes src).take wakeCount).countP (·.pid = q) +
      ((((m.kernel.futexes src).drop wakeCount).take requeueCount).countP (·.pid = q) +
        (((m.kernel.futexes src).drop wakeCount).drop requeueCount).countP (·.pid = q)) := by
    intro q
    rw [← List.countP_append, List.take_append_drop, ← List.countP_append,
      List.take_append_drop, places]
  refine h.update hwrites fun q => ?_
  have hsum := hsplit q
  refine (h.stage q).requeued hwrites src dst (by omega) (fun _ => ?_) (hplaces q)
    (congrArg (Timer.entriesOf · q) htimer) (fun hwoken => ?_) fun hne hpos => ?_
  · have hwoken : q ∈ ((m.kernel.futexes src).take wakeCount).map Waiter.pid ↔
        0 < ((m.kernel.futexes src).take wakeCount).countP (·.pid = q) := by
      simp only [List.mem_map, List.countP_pos_iff, decide_eq_true_eq]
    rw [hwoken]
    omega
  · obtain ⟨w, hw, rfl⟩ := List.mem_map.mp hwoken
    exact hcareful.1 w hw
  · obtain ⟨w, hw, hpid⟩ := List.countP_pos_iff.mp hpos
    obtain rfl : w.pid = q := of_decide_eq_true hpid
    exact hcareful.2 hne w hw

theorem Staged.run (h : m.Staged) (step : FutexStep F) (hcareful : step.Careful m) :
    (step.run m).Staged := by
  cases step with
  | spawn fpu => exact h.spawn fpu
  | wait addr valueMatches bitset timeout =>
    exact h.wait addr valueMatches bitset timeout hcareful
  | wake addr count bitset => exact h.wake addr count bitset hcareful
  | requeue src dst wakeCount requeueCount =>
    exact h.requeue src dst wakeCount requeueCount hcareful
  | timerTick => exact h.timerTick
  | schedule => exact h.schedule

/-- The machine after `init_boot_process`. -/
def boot (fpu : F) : FutexMachine F := ⟨Kernel.boot fpu, fun _ => none⟩

theorem boot_staged (fpu : F) : (boot fpu).Staged := by
  refine ⟨⟨1, rfl, rfl, rfl⟩, fun q hq => ?_, fun q => ⟨fun _ => rfl, ?_⟩⟩
  · have hlt : 2 ≤ q := hq
    rw [isSome_flags]
    exact congrArg Option.isSome (if_neg (by omega))
  · exact List.countP_eq_zero.mpr fun slot hslot => by
      rw [List.eq_of_mem_replicate hslot]
      simp

end FutexMachine

open FutexMachine FutexStep

/-- In a run of careful steps a call of `FUTEX_WAIT` that has returned leaves its process
in no futex queue and without a sleeper entry. -/
theorem noTrace_of_careful (fpu : F) (steps : List (FutexStep F))
    (h : EachStep FutexStep.run FutexStep.Careful steps (FutexMachine.boot fpu)) :
    AlongRun FutexStep.run FutexMachine.NoTrace steps (FutexMachine.boot fpu) := by
  have hstaged : AlongRun FutexStep.run FutexMachine.Staged steps (FutexMachine.boot fpu) :=
    alongRun_of_eachStep (fun step m hm hc => hm.run step hc) (boot_staged fpu) h
  exact hstaged.imp fun m hm => hm.noTrace

/-- The first process waits with a timeout of 10 ms, which expires. -/
def expiringRun : List (FutexStep Nat) :=
  [spawn 0, wait 8 true 1 (some 10), timerTick, schedule]

theorem noTrace_expiringRun :
    EachStep FutexStep.run FutexStep.Careful expiringRun (FutexMachine.boot 0) ∧
      AlongRun FutexStep.run FutexMachine.NoTrace expiringRun (FutexMachine.boot 0) := by
  have hcareful : EachStep FutexStep.run FutexStep.Careful expiringRun (FutexMachine.boot 0) :=
    ⟨trivial, fun _ => ⟨2, by decide, by decide, by decide⟩, trivial, trivial, trivial⟩
  exact ⟨hcareful, noTrace_of_careful 0 expiringRun hcareful⟩

/-- The first process waits with a timeout of 10 ms, and is moved to another queue
before that has expired. -/
def movingRun : List (FutexStep Nat) :=
  [spawn 0, wait 8 true 1 (some 10), requeue 8 9 0 1, timerTick, schedule]

def movingEnd : FutexMachine Nat :=
  movingRun.foldl (fun m step => step.run m) (FutexMachine.boot 0)

/-- The call has returned, and the next wake of the other futex is consumed by its
process. -/
theorem movingRun_leaves_waiter : movingEnd.calls 1 = none ∧
      movingEnd.kernel.wakenBy 1 1 (movingEnd.kernel.futexes 9) = [1] ∧
      ¬ AlongRun FutexStep.run FutexMachine.NoTrace movingRun (FutexMachine.boot 0) := by
  refine ⟨by decide +kernel, by decide +kernel, fun h => ?_⟩
  have hlast := (h.last 1 (by decide +kernel)).1 9
  revert hlast
  decide +kernel

end ZiqaKernel
