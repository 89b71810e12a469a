/-
Queues kept in a ring of slots: windows that keep the newest elements, and queues in
which one slot always stays empty, so that equal ends mean an empty queue.
-/
import Mathlib

namespace ZiqaKernel

open Function

/-- How many slots lie between the ends of a ring of `n`. -/
def ringSpan (n tail head : Nat) : Nat :=
  if tail ≤ head then head - tail else head + n - tail

section

variable {n tail head i j : Nat}

theorem ringSpan_lt (htail : tail < n) (hhead : head < n) : ringSpan n tail head < n := by
  unfold ringSpan
  split <;> omega

theorem ringSlot_eq (htail : tail < n) (hi : i < n) :
    (tail + i) % n = if tail + i < n then tail + i else tail + i - n := by
  split
  · next h => exact Nat.mod_eq_of_lt h
  · rw [Nat.mod_eq_sub_mod (by omega), Nat.mod_eq_of_lt (by omega)]

theorem ringSlot_injective (htail : tail < n) (hi : i < n) (hj : j < n)
    (h : (tail + i) % n = (tail + j) % n) : i = j := by
  rw [ringSlot_eq htail hi, ringSlot_eq htail hj] at h
  split at h <;> split at h <;> omega

theorem ringSlot_span (htail : tail < n) (hhead : head < n) :
    (tail + ringSpan n tail head) % n = head := by
  rw [ringSlot_eq htail (ringSpan_lt htail hhead)]
  unfold ringSpan
  split <;> split <;> omega

theorem ringSlot_succ : ((tail + 1) % n + i) % n = (tail + (i + 1)) % n := by
  rw [Nat.mod_add_mod, Nat.add_assoc, Nat.add_comm 1]

theorem ringSpan_head_succ (htail : tail < n) (hhead : head < n) (hfull : (head + 1) % n ≠ tail) :
    ringSpan n tail ((head + 1) % n) = ringSpan n tail head + 1 := by
  have hn : n ≠ 1 := by
    rintro rfl
    rw [Nat.mod_one] at hfull
    omega
  rw [ringSlot_eq hhead (by omega)] at hfull ⊢
  unfold ringSpan
  split_ifs at hfull ⊢ <;> omega

theorem ringSpan_tail_succ (htail : tail < n) (hhead : head < n) (hne : head ≠ tail) :
    ringSpan n tail head = ringSpan n ((tail + 1) % n) head + 1 := by
  rw [ringSlot_eq htail (by omega)]
  unfold ringSpan
  split <;> split <;> split <;> omega

theorem ringSpan_eq_zero (htail : tail < n) : ringSpan n tail head = 0 ↔ head = tail := by
  unfold ringSpan
  split <;> omega

theorem ringSpan_full (htail : tail < n) (hhead : head < n) :
    (head + 1) % n = tail ↔ ringSpan n tail head + 1 = n := by
  rcases Nat.lt_or_eq_of_le (Nat.succ_le_of_lt hhead) with hlt | rfl
  · rw [Nat.mod_eq_of_lt hlt]
    unfold ringSpan
    split <;> omega
  · rw [Nat.mod_self]
    unfold ringSpan
    split <;> omega

end

section

variable {α : Type} {slots : Nat → α} {n head count : Nat}

/-- The elements in `count` slots of a ring of `n`, from `head` on. -/
def ringWindow (slots : Nat → α) (n head count : Nat) : List α :=
  (List.range count).map fun i => slots ((head + i) % n)

theorem ringWindow_push (x : α) (hhead : head < n) (hcount : count < n) :
    ringWindow (update slots ((head + count) % n) x) n head (count + 1) =
      ringWindow slots n head count ++ [x] := by
  rw [ringWindow, ringWindow, List.range_succ, List.map_append]
  congr 1
  · apply List.map_congr_left
    intro i hi
    have hi := List.mem_range.mp hi
    apply update_of_ne
    intro h
    have := ringSlot_injective hhead (by omega) hcount h
    omega
  · simp

theorem ringWindow_replace (x : α) (hhead : head < n) :
    ringWindow (update slots head x) n ((head + 1) % n) n =
      (ringWindow slots n head n).tail ++ [x] := by
  obtain ⟨m, rfl⟩ : ∃ m, n = m + 1 := ⟨n - 1, by omega⟩
  have hzero : (head + 0) % (m + 1) = head := Nat.mod_eq_of_lt hhead
  have htail : (ringWindow slots (m + 1) head (m + 1)).tail =
      (List.range m).map fun i => slots ((head + (i + 1)) % (m + 1)) := by
    rw [ringWindow, List.range_succ_eq_map, List.map_cons, List.tail_cons, List.map_map]
    rfl
  rw [htail, ringWindow, List.range_succ, List.map_append]
  simp only [ringSlot_succ]
  congr 1
  · apply List.map_congr_left
    intro i hi
    have hi := List.mem_range.mp hi
    apply update_of_ne
    intro h
    have := ringSlot_injective hhead (by omega) (by omega) (h.trans hzero.symm)
    omega
  · simp [Nat.mod_eq_of_lt hhead]

theorem rtake_concat_of_lt {l : List α} {x : α} (h : l.length < n) :
    (l ++ [x]).rtake n = l.rtake n ++ [x] := by
  have hall : (l ++ [x]).length - n = 0 := by
    rw [List.length_append, List.length_singleton]
    omega
  rw [List.rtake, hall, List.rtake, Nat.sub_eq_zero_of_le h.le]
  rfl

theorem rtake_concat_of_le {l : List α} {x : α} (hn : 0 < n) (h : n ≤ l.length) :
    (l ++ [x]).rtake n = (l.rtake n).tail ++ [x] := by
  have hone : (l ++ [x]).length - n = l.length - n + 1 := by
    rw [List.length_append, List.length_singleton]
    omega
  rw [List.rtake, hone, List.drop_append_of_le_length (by omega), List.rtake, List.tail_drop]

end

/-- A ring of `n` slots, filled from `tail` up to `head`. -/
structure RingQueue (α : Type) (n : Nat) where
  slots : Nat → Option α
  head : Nat
  tail : Nat
  head_lt : head < n
  tail_lt : tail < n
  filled : ∀ i < ringSpan n tail head, (slots ((tail + i) % n)).isSome

namespace RingQueue

variable {α : Type} {n : Nat}

def empty (hn : 0 < n) : RingQueue α n where
  slots _ := none
  head := 0
  tail := 0
  head_lt := hn
  tail_lt := hn
  filled i hi := by simp [ringSpan] at hi

def size (r : RingQueue α n) : Nat := ringSpan n r.tail r.head

def toList (r : RingQueue α n) : List α :=
  (List.range r.size).filterMap fun i => r.slots ((r.tail + i) % n)

def push (r : RingQueue α n) (x : α) : Option (RingQueue α n) :=
  if hfull : (r.head + 1) % n = r.tail then none
  else some {
    slots := update r.slots r.head (some x)
    head := (r.head + 1) % n
    tail := r.tail
    head_lt := Nat.mod_lt _ (Nat.zero_lt_of_lt r.head_lt)
    tail_lt := r.tail_lt
    filled := by
      intro i hi
      rw [ringSpan_head_succ r.tail_lt r.head_lt hfull] at hi
      rcases Nat.lt_succ_iff_lt_or_eq.mp hi with hold | rfl
      · by_cases hslot : (r.tail + i) % n = r.head
        · rw [hslot, update_self]
          rfl
        · rw [update_of_ne hslot]
          exact r.filled i hold
      · rw [ringSlot_span r.tail_lt r.head_lt, update_self]
        rfl }

def pop (r : RingQueue α n) : Option (α × RingQueue α n) :=
  if hempty : r.head = r.tail then none
  else match r.slots r.tail with
    | none => none
    | some x => some (x, {
        slots := update r.slots r.tail none
        head := r.head
        tail := (r.tail + 1) % n
        head_lt := r.head_lt
        tail_lt := Nat.mod_lt _ (Nat.zero_lt_of_lt r.head_lt)
        filled := by
          intro i hi
          have hspan := ringSpan_tail_succ r.tail_lt r.head_lt hempty
          have hlt := ringSpan_lt r.tail_lt r.head_lt
          have hslot : (r.tail + (i + 1)) % n ≠ r.tail := by
            intro h
            have hzero : (r.tail + 0) % n = r.tail := Nat.mod_eq_of_lt r.tail_lt
            have := ringSlot_injective r.tail_lt (by omega) (by omega) (h.trans hzero.symm)
            omega
          rw [ringSlot_succ, update_of_ne hslot]
          exact r.filled (i + 1) (by omega) })

variable {r : RingQueue α n}

theorem slots_tail (hne : r.head ≠ r.tail) : ∃ x, r.slots r.tail = some x := by
  have hspan := ringSpan_tail_succ r.tail_lt r.head_lt hne
  have hfilled := r.filled 0 (by omega)
  rw [Nat.add_zero, Nat.mod_eq_of_lt r.tail_lt] at hfilled
  exact Option.isSome_iff_exists.mp hfilled

theorem push_eq_none_iff {x : α} :
    r.push x = none ↔ (r.head + 1) % n = r.tail := by
  rw [push]
  split
  · next h => exact iff_of_true rfl h
  · next h => exact iff_of_false (fun hnone => nomatch hnone) h

theorem length_toList (r : RingQueue α n) : r.toList.length = r.size := by
  rw [toList, List.filterMap_length_eq_length.mpr, List.length_range]
  intro i hi
  exact r.filled i (List.mem_range.mp hi)

theorem toList_push {r r' : RingQueue α n} {x : α} (h : r.push x = some r') :
    r'.toList = r.toList ++ [x] := by
  rw [push] at h
  split at h
  · cases h
  · next hfull =>
    obtain rfl := Option.some.inj h
    have hlt := ringSpan_lt r.tail_lt r.head_lt
    have hkept : ∀ i ∈ List.range r.size,
        update r.slots r.head (some x) ((r.tail + i) % n) =
          r.slots ((r.tail + i) % n) := by
      intro i hi
      have hi := List.mem_range.mp hi
      rw [size] at hi
      apply update_of_ne
      intro hslot
      have hspan := ringSlot_span r.tail_lt r.head_lt
      have := ringSlot_injective r.tail_lt (by omega) hlt (hslot.trans hspan.symm)
      omega
    rw [toList, toList, size]
    dsimp only
    rw [ringSpan_head_succ r.tail_lt r.head_lt hfull, List.range_succ,
      List.filterMap_append, ← size, List.filterMap_congr hkept]
    simp [size, ringSlot_span r.tail_lt r.head_lt]

theorem toList_eq_nil_iff : r.toList = [] ↔ r.head = r.tail := by
  constructor
  · intro h
    by_contra hne
    obtain ⟨x, hx⟩ := slots_tail hne
    have hspan := ringSpan_tail_succ r.tail_lt r.head_lt hne
    have hmem : x ∈ r.toList := by
      refine List.mem_filterMap.mpr ⟨0, List.mem_range.mpr ?_, ?_⟩
      · rw [size]
        omega
      · rw [Nat.add_zero, Nat.mod_eq_of_lt r.tail_lt, hx]
    rw [h] at hmem
    cases hmem
  · intro h
    rw [toList, size, (ringSpan_eq_zero r.tail_lt).mpr h]
    rfl

theorem toList_pop {r r' : RingQueue α n} {x : α} (h : r.pop = some (x, r')) :
    r.toList = x :: r'.toList := by
  rw [pop] at h
  split at h
  · cases h
  · next hne =>
    split at h
    · cases h
    · next y hy =>
      obtain ⟨rfl, rfl⟩ := Prod.mk.inj (Option.some.inj h)
      have hspan := ringSpan_tail_succ r.tail_lt r.head_lt hne
      have hlt := ringSpan_lt r.tail_lt r.head_lt
      have hkept : ∀ i ∈ List.range (ringSpan n ((r.tail + 1) % n) r.head),
          update r.slots r.tail none (((r.tail + 1) % n + i) % n) =
            r.slots ((r.tail + (i + 1)) % n) := by
        intro i hi
        have hi := List.mem_range.mp hi
        rw [ringSlot_succ]
        apply update_of_ne
        intro hslot
        have hzero : (r.tail + 0) % n = r.tail := Nat.mod_eq_of_lt r.tail_lt
        have := ringSlot_injective r.tail_lt (by omega) (by omega) (hslot.trans hzero.symm)
        omega
      rw [toList, toList, size, size]
      dsimp only
      rw [List.filterMap_congr hkept, hspan, List.range_succ_eq_map,
        List.filterMap_cons_some (b := y)]
      · rw [List.filterMap_map]
        rfl
      · rw [Nat.add_zero, Nat.mod_eq_of_lt r.tail_lt, hy]

theorem pop_eq_none_iff : r.pop = none ↔ r.toList = [] := by
  rw [toList_eq_nil_iff, pop]
  split
  · next h => exact iff_of_true rfl h
  · next h =>
    obtain ⟨x, hx⟩ := slots_tail h
    refine iff_of_false ?_ h
    rw [hx]
    exact fun hnone => nomatch hnone

end RingQueue

end ZiqaKernel
