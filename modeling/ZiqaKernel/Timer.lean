/-
The timer (`timer.rs`): its 64-bit ticks and the table of the sleepers.  What
`wake_sleepers` does to a process is a parameter.
-/
import Mathlib

namespace ZiqaKernel

structure SleepEntry where
  pid : Nat
  wakeTick : UInt64

structure Timer where
  ticks : UInt64
  sleepers : List (Option SleepEntry)
  sleeperCount : Nat

/-- `MAX_SLEEPERS` -/
def maxSleepers : Nat := 256

/-- `MS_PER_TICK` -/
def msPerTick : UInt64 := 10

namespace Timer

/-- `Timer::new` -/
def new : Timer := ⟨0, List.replicate maxSleepers none, 0⟩

def fill (entry : SleepEntry) : List (Option SleepEntry) → Option (List (Option SleepEntry))
  | [] => none
  | none :: rest => some (some entry :: rest)
  | some e :: rest => (fill entry rest).map (some e :: ·)

/-- `Timer::sleep_ms` -/
def sleepMs (t : Timer) (pid : Nat) (ms : UInt64) : Bool × Timer :=
  if t.sleeperCount ≥ maxSleepers then (false, t)
  else
    match fill ⟨pid, t.ticks + (ms + msPerTick - 1) / msPerTick⟩ t.sleepers with
    | none => (false, t)
    | some sleepers =>
      (true, { t with sleepers := sleepers, sleeperCount := t.sleeperCount + 1 })

section

variable {σ : Type} (wake : Nat → σ → σ)

/-- The loop of `wake_sleepers` over the slots, with the processes and the sleeper
count. -/
def wakeSlots (ticks : UInt64) :
    List (Option SleepEntry) → σ → Nat → List (Option SleepEntry) × σ × Nat
  | [], s, count => ([], s, count)
  | none :: rest, s, count =>
    let (slots, r) := wakeSlots ticks rest s count
    (none :: slots, r)
  | some e :: rest, s, count =>
    if ticks ≥ e.wakeTick then
      let (slots, r) := wakeSlots ticks rest (wake e.pid s) (count - 1)
      (none :: slots, r)
    else
      let (slots, r) := wakeSlots ticks rest s count
      (some e :: slots, r)

/-- `Timer::tick` -/
def tick (t : Timer) (s : σ) : Timer × σ :=
  let (slots, s', count) := wakeSlots wake (t.ticks + 1) t.sleepers s t.sleeperCount
  (⟨t.ticks + 1, slots, count⟩, s')

end

def occupied (t : Timer) : Nat := t.sleepers.countP Option.isSome

def entriesOf (t : Timer) (pid : Nat) : Nat :=
  t.sleepers.countP fun slot => slot.any (·.pid = pid)

/-- At its next tick the timer finds an entry of the process due. -/
def duePid (t : Timer) (q : Nat) : Bool :=
  t.sleepers.any fun slot => slot.any fun e => e.pid = q && t.ticks + 1 ≥ e.wakeTick

/-! The table -/

theorem fill_eq_some {entry : SleepEntry} {slots slots' : List (Option SleepEntry)}
    (h : fill entry slots = some slots') :
    ∃ front back, slots = front ++ none :: back ∧ slots' = front ++ some entry :: back := by
  induction slots generalizing slots' with
  | nil => cases h
  | cons slot rest ih =>
    cases slot with
    | none =>
      obtain rfl := Option.some.inj h
      exact ⟨[], rest, rfl, rfl⟩
    | some e =>
      obtain ⟨rest', hrest, rfl⟩ := Option.map_eq_some_iff.mp h
      obtain ⟨front, back, rfl, rfl⟩ := ih hrest
      exact ⟨some e :: front, back, rfl, rfl⟩

theorem fill_eq_none {entry : SleepEntry} {slots : List (Option SleepEntry)}
    (h : fill entry slots = none) : slots.countP Option.isSome = slots.length := by
  induction slots with
  | nil => rfl
  | cons slot rest ih =>
    cases slot with
    | none => cases h
    | some e =>
      rw [List.countP_cons_of_pos rfl, ih (Option.map_eq_none_iff.mp h), List.length_cons]

/-- The table has its 256 slots, and the count is that of the occupied ones. -/
structure Counted (t : Timer) : Prop where
  length : t.sleepers.length = maxSleepers
  count : t.sleeperCount = t.occupied

theorem new_counted : new.Counted where
  length := List.length_replicate
  count := (List.countP_eq_zero.mpr fun slot hslot => by
    rw [List.eq_of_mem_replicate hslot]
    decide).symm

/-- `sleep_ms` takes a free slot, or it changes nothing; a table with the right count is
full then. -/
theorem sleepMs_cases (t : Timer) (pid : Nat) (ms : UInt64) :
    (t.sleepMs pid ms).2 = t ∧ (t.Counted → maxSleepers ≤ t.sleeperCount) ∨
      ∃ front back, t.sleepers = front ++ none :: back ∧
        (t.sleepMs pid ms).2 = { t with
          sleepers := front ++ some ⟨pid, t.ticks + (ms + msPerTick - 1) / msPerTick⟩ :: back
          sleeperCount := t.sleeperCount + 1 } := by
  unfold sleepMs
  split
  · next hfull => exact Or.inl ⟨rfl, fun _ => hfull⟩
  · split
    · next hnone =>
      refine Or.inl ⟨rfl, fun hcounted => ?_⟩
      rw [hcounted.count, occupied, fill_eq_none hnone, hcounted.length]
    · next slots hslots =>
      obtain ⟨front, back, hold, rfl⟩ := fill_eq_some hslots
      exact Or.inr ⟨front, back, hold, rfl⟩

variable {t : Timer} {q : Nat}

theorem sleepMs_counted (h : t.Counted) (pid : Nat) (ms : UInt64) :
    (t.sleepMs pid ms).2.Counted := by
  rcases t.sleepMs_cases pid ms with ⟨hsame, -⟩ | ⟨front, back, hold, hnew⟩
  · rwa [hsame]
  · have hlength := h.length
    have hcount := h.count
    rw [occupied, hold, List.countP_append, List.countP_cons] at hcount
    rw [hold, List.length_append, List.length_cons] at hlength
    rw [hnew]
    refine ⟨?_, ?_⟩
    · rw [List.length_append, List.length_cons]
      exact hlength
    · rw [occupied, List.countP_append, List.countP_cons, hcount]
      simp
      omega

theorem sleepMs_ticks (t : Timer) (pid : Nat) (ms : UInt64) :
    (t.sleepMs pid ms).2.ticks = t.ticks := by
  rcases t.sleepMs_cases pid ms with ⟨hsame, -⟩ | ⟨front, back, -, hnew⟩
  · rw [hsame]
  · rw [hnew]

/-- `sleep_ms` makes at most one entry, for the process that it is called for. -/
theorem entriesOf_sleepMs (t : Timer) (pid : Nat) (ms : UInt64) (q : Nat) :
    (t.sleepMs pid ms).2.entriesOf q = t.entriesOf q ∨
      q = pid ∧ (t.sleepMs pid ms).2.entriesOf q = t.entriesOf q + 1 := by
  rcases t.sleepMs_cases pid ms with ⟨hsame, -⟩ | ⟨front, back, hold, hnew⟩
  · rw [hsame]
    exact Or.inl rfl
  · rw [hnew, entriesOf, entriesOf, hold]
    simp only [List.countP_append, List.countP_cons, Option.any_some, Option.any_none]
    by_cases hq : q = pid
    · right
      simp only [hq, decide_true, ↓reduceIte, true_and, Bool.false_eq_true]
      omega
    · left
      have hne : ¬ pid = q := fun h => hq h.symm
      simp only [hne, decide_false]

/-! The tick -/

section

variable {σ : Type} {wake : Nat → σ → σ} {ticks : UInt64} {slots : List (Option SleepEntry)}
  {s : σ} {count : Nat}

theorem wakeSlots_slots : (wakeSlots wake ticks slots s count).1 =
    slots.map fun slot => slot.filter fun e => ¬ ticks ≥ e.wakeTick := by
  induction slots generalizing s count with
  | nil => rfl
  | cons slot rest ih =>
    cases slot with
    | none => exact congrArg (none :: ·) ih
    | some e =>
      rw [wakeSlots, List.map_cons]
      split
      · next hdue =>
        rw [Option.filter_some_neg (by simpa using hdue)]
        exact congrArg (none :: ·) ih
      · next hdue =>
        rw [Option.filter_some_pos (by simpa using hdue)]
        exact congrArg (some e :: ·) ih

/-- What waking a process keeps, the loop keeps. -/
theorem wakeSlots_keeps {P : σ → Prop} (hwake : ∀ pid s, P s → P (wake pid s)) (h : P s) :
    P (wakeSlots wake ticks slots s count).2.1 := by
  induction slots generalizing s count with
  | nil => exact h
  | cons slot rest ih =>
    cases slot with
    | none => exact ih h
    | some e =>
      rw [wakeSlots]
      split
      · exact ih (hwake e.pid s h)
      · exact ih h

/-- A view of the processes that waking `q` changes, to the same effect when it is done
twice, and that waking others does not change, is changed when an entry of `q` is due. -/
theorem wakeSlots_view {α : Type} {v : σ → α} {f : α → α} (hf : ∀ a, f (f a) = f a)
    (hwake : ∀ pid s, v (wake pid s) = if q = pid then f (v s) else v s) :
    v (wakeSlots wake ticks slots s count).2.1 =
      if slots.any fun slot => slot.any fun e => e.pid = q && ticks ≥ e.wakeTick
      then f (v s) else v s := by
  induction slots generalizing s count with
  | nil => rfl
  | cons slot rest ih =>
    cases slot with
    | none => exact ih
    | some e =>
      rw [wakeSlots, List.any_cons, Option.any_some]
      split
      · next hdue =>
        dsimp only
        rw [ih, hwake, decide_eq_true hdue, Bool.and_true]
        by_cases hq : q = e.pid
        · rw [if_pos hq, decide_eq_true hq.symm, Bool.true_or, if_pos rfl, hf, ite_self]
        · rw [if_neg hq, decide_eq_false fun heq => hq heq.symm, Bool.false_or]
      · next hdue =>
        rw [decide_eq_false hdue, Bool.and_false, Bool.false_or]
        exact ih

theorem wakeSlots_count (extra : Nat) (h : count = slots.countP Option.isSome + extra) :
    (wakeSlots wake ticks slots s count).2.2 =
      (wakeSlots wake ticks slots s count).1.countP Option.isSome + extra := by
  induction slots generalizing s count extra with
  | nil => exact h
  | cons slot rest ih =>
    cases slot with
    | none =>
      rw [List.countP_cons_of_neg (by decide)] at h
      rw [wakeSlots]
      dsimp only
      rw [List.countP_cons_of_neg (by decide)]
      exact ih extra h
    | some e =>
      rw [List.countP_cons_of_pos rfl] at h
      rw [wakeSlots]
      split
      · dsimp only
        rw [List.countP_cons_of_neg (by decide)]
        exact ih extra (by omega)
      · dsimp only
        rw [List.countP_cons_of_pos rfl, ih (extra + 1) (by omega)]
        omega

theorem tick_counted (h : t.Counted) : (t.tick wake s).1.Counted where
  length := by
    change (wakeSlots wake (t.ticks + 1) t.sleepers s t.sleeperCount).1.length = maxSleepers
    rw [wakeSlots_slots, List.length_map]
    exact h.length
  count := wakeSlots_count 0 h.count

theorem sleepers_tick : (t.tick wake s).1.sleepers =
    t.sleepers.map fun slot => slot.filter fun e => ¬ t.ticks + 1 ≥ e.wakeTick :=
  wakeSlots_slots

theorem entriesOf_tick_add (t : Timer) (wake : Nat → σ → σ) (s : σ) (q : Nat) :
    (t.tick wake s).1.entriesOf q + t.sleepers.countP
        (fun slot => slot.any fun e => e.pid = q && t.ticks + 1 ≥ e.wakeTick) =
      t.entriesOf q := by
  rw [entriesOf, sleepers_tick, entriesOf]
  induction t.sleepers with
  | nil => rfl
  | cons slot rest ih =>
    rw [List.map_cons, List.countP_cons, List.countP_cons, List.countP_cons, ← ih]
    cases slot with
    | none => simp
    | some e =>
      by_cases hdue : t.ticks + 1 ≥ e.wakeTick
      · rw [Option.filter_some_neg (by simpa using hdue)]
        simp [hdue]
        omega
      · rw [Option.filter_some_pos (by simpa using hdue)]
        simp [hdue]
        omega

/-- A process with at most one entry has none left once that one is due, and keeps it
otherwise. -/
theorem entriesOf_tick (h : t.entriesOf q ≤ 1) :
    (t.tick wake s).1.entriesOf q = if t.duePid q then 0 else t.entriesOf q := by
  have hadd := t.entriesOf_tick_add wake s q
  split
  · next hdue =>
    have hpos := List.countP_pos_iff.mpr (List.any_eq_true.mp hdue)
    omega
  · next hdue =>
    rw [← hadd, List.countP_eq_zero.mpr, Nat.add_zero]
    intro slot hslot hany
    exact hdue (List.any_eq_true.mpr ⟨slot, hslot, hany⟩)

end

theorem entriesOf_pos_of_duePid (h : t.duePid q = true) : 0 < t.entriesOf q := by
  obtain ⟨slot, hslot, hany⟩ := List.any_eq_true.mp h
  rw [entriesOf, List.countP_pos_iff]
  refine ⟨slot, hslot, ?_⟩
  obtain ⟨e, rfl, he⟩ := (Option.any_eq_true _ _).mp hany
  rw [Bool.and_eq_true] at he
  exact he.1

end Timer

end ZiqaKernel
