/-
The queues of the futexes (`sync/futex.rs`): what `wake` and `requeue` take out of them,
what they put into them, and the numbers they return.
-/
import ZiqaKernel.FutexReturns

namespace ZiqaKernel

variable {F : Type}

namespace Kernel

/-- `wake` takes the waiters that match out of the part `seen` of the queue, wakes those of
them whose process exists, at most `count`, and stops before the end of the queue only when
it has woken `count`. -/
structure WakesFrom (k : Kernel F) (addr count : Nat) (bitset : UInt32)
    (seen rest : List Waiter) : Prop where
  queue : k.futexes addr = seen ++ rest
  kept : (k.futexWake addr count bitset).2.futexes addr =
    seen.filter (fun w => w.bitset &&& bitset = 0) ++ rest
  others : ∀ a, a ≠ addr → (k.futexWake addr count bitset).2.futexes a = k.futexes a
  unblocked : (k.futexWake addr count bitset).2.tasks =
    (((k.wakeable bitset seen).map Waiter.pid).foldl unblock k).tasks
  returned : (k.futexWake addr count bitset).1 = (k.wakeable bitset seen).length
  le : (k.wakeable bitset seen).length ≤ count
  whole : (k.wakeable bitset seen).length < count → rest = []
  conserved : ((k.futexWake addr count bitset).2.futexes addr ++
    seen.filter (fun w => w.bitset &&& bitset ≠ 0)).Perm (k.futexes addr)

/-- `requeue` wakes the waiters `woken` at the front of the queue, moves the next ones and
leaves the others. -/
structure Requeues (k : Kernel F) (src dst wakeCount requeueCount : Nat)
    (woken moved left : List Waiter) : Prop where
  queue : k.futexes src = woken ++ moved ++ left
  woken_eq : woken = (k.futexes src).take wakeCount
  moved_eq : moved = ((k.futexes src).drop wakeCount).take requeueCount
  source : src ≠ dst → (k.futexRequeue src dst wakeCount requeueCount).2.futexes src = left
  destination : src ≠ dst →
    (k.futexRequeue src dst wakeCount requeueCount).2.futexes dst = k.futexes dst ++ moved
  same : src = dst → (k.futexRequeue src dst wakeCount requeueCount).2.futexes src = left ++ moved
  others : ∀ a, a ≠ src → a ≠ dst →
    (k.futexRequeue src dst wakeCount requeueCount).2.futexes a = k.futexes a
  unblocked : (k.futexRequeue src dst wakeCount requeueCount).2.tasks =
    ((woken.map Waiter.pid).foldl unblock k).tasks
  returned : (k.futexRequeue src dst wakeCount requeueCount).1 =
    woken.countP (fun w => (k.tasks w.pid).isSome) + moved.length

theorem wakesFrom_exists (k : Kernel F) (addr count : Nat) (bitset : UInt32) :
    ∃ seen rest, WakesFrom k addr count bitset seen rest := by
  obtain ⟨seen, rest, h⟩ := k.wakeSplit_exists count bitset (k.futexes addr)
  have hkept : (k.futexWake addr count bitset).2.futexes addr =
      seen.filter (fun w => w.bitset &&& bitset = 0) ++ rest := by
    rw [← h.kept]
    exact if_pos rfl
  refine ⟨seen, rest, h.split, hkept, fun a ha => ?_, ?_, h.returned, h.le, h.whole, ?_⟩
  · rw [← (foldl_unblock_tables ((k.wakeable bitset seen).map Waiter.pid) k).1, ← h.unblocked]
    exact if_neg ha
  · rw [← h.unblocked]
    rfl
  · rw [hkept, h.split, List.append_assoc]
    refine (List.perm_append_comm.append_left _).trans ?_
    rw [← List.append_assoc]
    refine List.Perm.append_right rest ?_
    simpa using List.filter_append_perm (fun w : Waiter => w.bitset &&& bitset = 0) seen

theorem requeues_exists (k : Kernel F) (src dst wakeCount requeueCount : Nat) :
    ∃ woken moved left, Requeues k src dst wakeCount requeueCount woken moved left := by
  have hfold := (foldl_unblock_tables (((k.futexes src).take wakeCount).map Waiter.pid) k).1
  have hrequeue := k.futexRequeue_eq src dst wakeCount requeueCount
  dsimp only at hrequeue
  rw [hfold] at hrequeue
  refine ⟨_, _, ((k.futexes src).drop wakeCount).drop requeueCount, ?_, rfl, rfl, ?_, ?_, ?_, ?_,
    by rw [hrequeue], congrArg Prod.fst hrequeue⟩
  · rw [List.append_assoc, List.take_append_drop, List.take_append_drop]
  · intro hne
    rw [hrequeue]
    simp [hne]
  · intro hne
    rw [hrequeue]
    simp [hne.symm]
  · rintro rfl
    rw [hrequeue]
    simp
  · intro a hsrc hdst
    rw [hrequeue]
    simp [hsrc, hdst]

/-- No waiter is lost or doubled, the order is kept, and the numbers are those of the
waiters that were woken and moved. -/
theorem futexQueues_conserved (k : Kernel F) :
    (∀ addr count bitset, ∃ seen rest, WakesFrom k addr count bitset seen rest) ∧
    ∀ src dst wakeCount requeueCount, ∃ woken moved left,
      Requeues k src dst wakeCount requeueCount woken moved left :=
  ⟨k.wakesFrom_exists, k.requeues_exists⟩

end Kernel

end ZiqaKernel
