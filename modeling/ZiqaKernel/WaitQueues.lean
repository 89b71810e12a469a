/-
Readers that wait for data: `PipeScheme` (`scheme/pipe.rs`) and `WaitQueue`
(`sync/wait_queue.rs`) over `WaitCondition` (`sync/wait_condition.rs`), with every action
under one lock as a step of its own.
-/
import ZiqaKernel.Scheduler
import ZiqaKernel.StepRuns

namespace ZiqaKernel

/-- Where a reader is: outside, before its look at the queue, before it enters itself as a
waiter, before it sets its state, or in its call of `schedule`. -/
inductive ReaderPlace where
  | idle
  | checking
  | registering
  | blocking
  | asleep
deriving DecidableEq

/-- A queue with its readers and writers; `writers` are those that have appended and not
notified yet. -/
structure WaitSystem (α : Type) where
  queue : List α
  waiters : List Nat
  states : Nat → ProcessState
  places : Nat → ReaderPlace
  writers : List Nat

/-- One action of a reader `r` or a writer `w`. -/
inductive WaitStep (α : Type) where
  | call (r : Nat)
  | check (r count : Nat)
  | register (r : Nat)
  | block (r : Nat)
  | resume (r : Nat)
  | append (w : Nat) (items : List α)
  | notify (w : Nat)

namespace WaitSystem

variable {α : Type}

def move (s : WaitSystem α) (r : Nat) (place : ReaderPlace) : WaitSystem α :=
  { s with places := Function.update s.places r place }

def setState (s : WaitSystem α) (r : Nat) (state : ProcessState) : WaitSystem α :=
  { s with states := Function.update s.states r state }

/-- An action that is not possible changes nothing.  A pipe is `locked` by a writer until it
has notified.  A call of `schedule` returns when the process has been picked, and at once
when there is no other process to switch to. -/
def step (locked : Bool) : WaitStep α → WaitSystem α → WaitSystem α
  | .call r, s => if s.places r = .idle then s.move r .checking else s
  | .check r count, s =>
    if s.places r = .checking ∧ (locked → s.writers = []) then
      match s.queue with
      | [] => s.move r .registering
      | item :: rest => { s.move r .idle with queue := (item :: rest).drop count }
    else s
  | .register r, s =>
    if s.places r = .registering then
      { s.move r .blocking with waiters := s.waiters ++ [r] }
    else s
  | .block r, s =>
    if s.places r = .blocking then (s.move r .asleep).setState r .blocked else s
  | .resume r, s =>
    if s.places r = .asleep then
      (s.move r .checking).setState r (if s.states r = .ready then .running else s.states r)
    else s
  | .append w items, s =>
    if w ∉ s.writers ∧ (locked → s.writers = []) then
      { s with queue := s.queue ++ items, writers := w :: s.writers }
    else s
  | .notify w, s =>
    if w ∈ s.writers then
      { s with
        waiters := []
        states := fun p => if p ∈ s.waiters then .ready else s.states p
        writers := s.writers.erase w }
    else s

def start (states : Nat → ProcessState) : WaitSystem α := ⟨[], [], states, fun _ => .idle, []⟩

def Quiescent (s : WaitSystem α) : Prop :=
  s.writers = [] ∧ ∀ r, s.places r = .idle ∨ s.places r = .asleep

def LostWakeup (s : WaitSystem α) : Prop :=
  s.queue ≠ [] ∧ s.Quiescent ∧ ∃ r, s.places r = .asleep ∧ s.states r = .blocked

/-- No writer acts while a reader is between finding the queue empty and being blocked. -/
def Undisturbed : WaitStep α → WaitSystem α → Prop
  | .append _ _, s => ∀ r, s.places r ≠ .registering ∧ s.places r ≠ .blocking
  | .notify _, s => ∀ r, s.places r ≠ .registering ∧ s.places r ≠ .blocking
  | _, _ => True

/-- A reader that is about to block has found the queue empty and is a waiter; a reader that
is blocked is one, and with data in the queue a writer is about to notify it. -/
structure Awaited (s : WaitSystem α) : Prop where
  empty : ∀ r, s.places r = .registering ∨ s.places r = .blocking → s.queue = []
  entered : ∀ r, s.places r = .blocking → r ∈ s.waiters
  blocked : ∀ r, s.places r = .asleep → s.states r = .blocked → r ∈ s.waiters
  served : s.queue ≠ [] → s.writers = [] → ∀ r, s.places r = .asleep → s.states r ≠ .blocked

section

variable {s : WaitSystem α} {r : Nat}

theorem places_move (s : WaitSystem α) (r r' : Nat) (place : ReaderPlace) :
    (s.move r place).places r' = if r' = r then place else s.places r' :=
  Function.update_apply ..

theorem states_setState (s : WaitSystem α) {r r' : Nat} (h : r' ≠ r) (state : ProcessState) :
    (s.setState r state).states r' = s.states r' :=
  Function.update_of_ne h ..

section

variable (h : s.Awaited)
include h

theorem Awaited.move {place : ReaderPlace}
    (hplace : place = .idle ∨ place = .checking ∨ place = .registering ∧ s.queue = []) :
    (s.move r place).Awaited := by
  refine ⟨fun r' hr' => ?_, fun r' hr' => ?_, fun r' hr' hstate => ?_,
    fun hqueue hwriters r' hr' => ?_⟩
  · rw [places_move] at hr'
    split at hr'
    · rcases hplace with rfl | rfl | ⟨-, hempty⟩
      · simp at hr'
      · simp at hr'
      · exact hempty
    · exact h.empty r' hr'
  all_goals
    rw [places_move] at hr'
    split at hr'
    · rcases hplace with rfl | rfl | ⟨rfl, -⟩ <;> cases hr'
  · exact h.entered r' hr'
  · exact h.blocked r' hr' hstate
  · exact h.served hqueue hwriters r' hr'

section

variable (locked : Bool)

theorem Awaited.check (count : Nat) :
    (step locked (.check r count) s).Awaited := by
  rw [step]
  split
  · split
    · next hempty => exact h.move (.inr (.inr ⟨rfl, hempty⟩))
    · next item rest hqueue =>
      have hmoved : (s.move r .idle).Awaited := h.move (.inl rfl)
      have hne : s.queue ≠ [] := by simp [hqueue]
      refine ⟨fun r' hr' => ?_, hmoved.entered, hmoved.blocked, fun _ => hmoved.served hne⟩
      exact absurd (hmoved.empty r' hr') hne
  · exact h

theorem Awaited.register :
    (step locked (.register r) s).Awaited := by
  rw [step]
  split
  · next hplace =>
    have hempty := h.empty r (.inl hplace)
    refine ⟨fun _ _ => hempty, fun r' hr' => ?_, fun r' hr' hstate => ?_,
      fun hne => absurd hempty hne⟩
    · rw [List.mem_append, List.mem_singleton]
      rw [places_move] at hr'
      split at hr'
      · next heq => exact .inr heq
      · exact .inl (h.entered r' hr')
    · rw [places_move] at hr'
      split at hr'
      · cases hr'
      · exact List.mem_append_left _ (h.blocked r' hr' hstate)
  · exact h

theorem Awaited.block : (step locked (.block r) s).Awaited := by
  rw [step]
  split
  · next hplace =>
    have hempty := h.empty r (.inr hplace)
    refine ⟨fun _ _ => hempty, fun r' hr' => ?_, fun r' hr' hstate => ?_,
      fun hne => absurd hempty hne⟩
    · rw [setState, places_move] at hr'
      split at hr'
      · cases hr'
      · exact h.entered r' hr'
    · by_cases heq : r' = r
      · exact heq ▸ h.entered r hplace
      · rw [states_setState _ heq] at hstate
        rw [setState, places_move, if_neg heq] at hr'
        exact h.blocked r' hr' hstate
  · exact h

theorem Awaited.resume : (step locked (.resume r) s).Awaited := by
  rw [step]
  split
  · have hmoved : (s.move r .checking).Awaited := h.move (.inr (.inl rfl))
    -- The state of a reader that is asleep after the step has not changed.
    have hother {r' : Nat} (hr' : (s.move r .checking).places r' = .asleep) : r' ≠ r := by
      rintro rfl
      rw [places_move, if_pos rfl] at hr'
      cases hr'
    refine ⟨hmoved.empty, hmoved.entered, fun r' hr' hstate => ?_,
      fun hne hwriters r' hr' hstate => ?_⟩
    · rw [states_setState _ (hother hr')] at hstate
      exact hmoved.blocked r' hr' hstate
    · rw [states_setState _ (hother hr')] at hstate
      exact hmoved.served hne hwriters r' hr' hstate
  · exact h

theorem Awaited.append (w : Nat) (items : List α)
    (hcalm : ∀ r, s.places r ≠ .registering ∧ s.places r ≠ .blocking) :
    (step locked (.append w items) s).Awaited := by
  rw [step]
  split
  · refine ⟨fun r hr => ?_, h.entered, h.blocked, fun _ hwriters => nomatch hwriters⟩
    rcases hr with hr | hr
    · exact absurd hr (hcalm r).1
    · exact absurd hr (hcalm r).2
  · exact h

theorem Awaited.notify (w : Nat)
    (hcalm : ∀ r, s.places r ≠ .registering ∧ s.places r ≠ .blocking) :
    (step locked (.notify w) s).Awaited := by
  rw [step]
  split
  · -- Every reader that was blocked was a waiter, so none is.
    have hready : ∀ r, s.places r = .asleep →
        (if r ∈ s.waiters then ProcessState.ready else s.states r) ≠ .blocked := by
      intro r hr hstate
      split at hstate
      · cases hstate
      · next hout => exact hout (h.blocked r hr hstate)
    refine ⟨h.empty, fun r hr => absurd hr (hcalm r).2, fun r hr hstate => ?_, fun _ _ => hready⟩
    exact absurd hstate (hready r hr)
  · exact h

theorem Awaited.step (o : WaitStep α) (ho : Undisturbed o s) :
    (step locked o s).Awaited := by
  cases o with
  | call r =>
    rw [WaitSystem.step]
    split
    · exact h.move (.inr (.inl rfl))
    · exact h
  | check r count => exact h.check locked count
  | register r => exact h.register locked
  | block r => exact h.block locked
  | resume r => exact h.resume locked
  | append w items => exact h.append locked w items ho
  | notify w => exact h.notify locked w ho

end

end

end

/-- Where no writer acts between the look of a reader at the queue and its blocking, no
wakeup is lost, for pipes and for wait queues. -/
theorem noLostWakeup_of_undisturbed (locked : Bool) (states : Nat → ProcessState)
    {steps : List (WaitStep α)} (h : EachStep (step locked) Undisturbed steps (start states)) :
    AlongRun (step locked) (fun s => ¬ s.LostWakeup) steps (start states) := by
  have hstart : (start states : WaitSystem α).Awaited := by
    refine ⟨fun _ _ => rfl, fun r hr => ?_, fun r hr => ?_, fun hne => absurd rfl hne⟩
    · cases hr
    · cases hr
  have hrun := alongRun_of_eachStep (P := Awaited) (fun o s hs ho => hs.step locked o ho) hstart h
  refine hrun.imp fun s hs => ?_
  rintro ⟨hqueue, ⟨hwriters, -⟩, r, hplace, hstate⟩
  exact hs.served hqueue hwriters r hplace hstate

/-- The writer comes when the reader waits already. -/
theorem noLostWakeup_patientRun :
    AlongRun (step true) (fun s => ¬ s.LostWakeup)
      [.call 1, .check 1 1, .register 1, .block 1, .append 2 [7], .notify 2]
      (start fun _ => .running : WaitSystem Nat) := by
  apply noLostWakeup_of_undisturbed
  refine ⟨trivial, trivial, trivial, trivial, fun r => ?_, fun r => ?_, trivial⟩
  all_goals
    by_cases hr : r = 1
    · simp [step, start, move, setState, hr]
    · simp [step, start, move, setState, hr]

def hastyRun : List (WaitStep Nat) :=
  [.call 1, .check 1 1, .append 2 [7], .notify 2, .register 1, .block 1]

theorem lostWakeup_hastyRun (locked : Bool) :
    (hastyRun.foldl (fun s o => step locked o s) (start fun _ => .running)).LostWakeup := by
  simp [hastyRun, LostWakeup, Quiescent, step, start, move, setState, Function.update_apply]
  exact fun r => (em (r = 1)).symm

/-- It notifies nobody, and the reader blocks with the data in the queue, be it that of a
pipe or a wait queue. -/
theorem wakeup_lost :
    (hastyRun.foldl (fun s o => step true o s) (start fun _ => .running)).LostWakeup ∧
    (hastyRun.foldl (fun s o => step false o s) (start fun _ => .running)).LostWakeup :=
  ⟨lostWakeup_hastyRun true, lostWakeup_hastyRun false⟩

end WaitSystem

end ZiqaKernel
