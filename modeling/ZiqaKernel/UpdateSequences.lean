/-
Sequences of updates: a list of writes to the cells of a store, carried out in
order, so that the last write to a cell decides what it holds.
-/
import Mathlib

namespace ZiqaKernel

variable {α β : Type} [DecidableEq α]

/-- Carry out the writes, given by cell and value, from the first to the last. -/
def applyUpdates (ws : List (α × β)) (f : α → β) : α → β :=
  ws.foldl (fun f w => Function.update f w.1 w.2) f

variable {ws : List (α × β)} {f g : α → β} {a : α}

@[simp]
theorem applyUpdates_cons (w : α × β) (ws : List (α × β)) (f : α → β) :
    applyUpdates (w :: ws) f = applyUpdates ws (Function.update f w.1 w.2) := rfl

theorem applyUpdates_of_forall_ne (h : ∀ w ∈ ws, w.1 ≠ a) : applyUpdates ws f a = f a := by
  induction ws generalizing f with
  | nil => rfl
  | cons w ws ih =>
    rw [List.forall_mem_cons] at h
    rw [applyUpdates_cons, ih h.2, Function.update_of_ne (Ne.symm h.1)]

theorem applyUpdates_of_mem {w : α × β} (hw : w ∈ ws)
    (h : ∀ x ∈ ws, ∀ y ∈ ws, x.1 = y.1 → x.2 = y.2) :
    applyUpdates ws f w.1 = w.2 := by
  induction ws generalizing f w with
  | nil => cases hw
  | cons x ws ih =>
    have htail : ∀ y ∈ ws, ∀ z ∈ ws, y.1 = z.1 → y.2 = z.2 := fun y hy z hz =>
      h y (List.mem_cons_of_mem x hy) z (List.mem_cons_of_mem x hz)
    rw [applyUpdates_cons]
    rcases List.mem_cons.mp hw with rfl | hmem
    · -- The first write stands unless a later one goes to the same cell.
      by_cases hlater : ∃ y ∈ ws, y.1 = w.1
      · obtain ⟨y, hy, heq⟩ := hlater
        have hvalue := h y (List.mem_cons_of_mem w hy) w List.mem_cons_self heq
        rw [← heq, ih hy htail, hvalue]
      · have hnone : ∀ y ∈ ws, y.1 ≠ w.1 := fun y hy heq => hlater ⟨y, hy, heq⟩
        rw [applyUpdates_of_forall_ne hnone, Function.update_self]
    · exact ih hmem htail

def lastUpdate : List (α × β) → α → Option β
  | [], _ => none
  | w :: ws, a => (lastUpdate ws a).or (if w.1 = a then some w.2 else none)

theorem applyUpdates_eq (ws : List (α × β)) (f : α → β) (a : α) :
    applyUpdates ws f a = (lastUpdate ws a).getD (f a) := by
  induction ws generalizing f with
  | nil => rfl
  | cons w ws ih =>
    rw [applyUpdates_cons, ih, lastUpdate]
    cases lastUpdate ws a with
    | some b => rfl
    | none =>
      rw [Option.none_or]
      by_cases h : w.1 = a
      · rw [if_pos h, ← h, Function.update_self]
        rfl
      · rw [if_neg h, Function.update_of_ne (Ne.symm h)]

theorem applyUpdates_idem (ws : List (α × β)) (f : α → β) :
    applyUpdates ws (applyUpdates ws f) = applyUpdates ws f := by
  funext a
  rw [applyUpdates_eq, applyUpdates_eq]
  cases lastUpdate ws a <;> rfl

theorem applyUpdates_eq_self_iff :
    applyUpdates ws f a = f a ↔ ∀ b, lastUpdate ws a = some b → f a = b := by
  rw [applyUpdates_eq]
  cases lastUpdate ws a with
  | none => simp
  | some b => simp [eq_comm]

end ZiqaKernel
