/-
Chains that are linked through a table: each cell names the next one, and the
last cell of a chain names none.  The table is any partial function, so the
lemmas apply to free lists and to allocation tables alike.
-/
import Mathlib

namespace ZiqaKernel

variable {α : Type}

/-- Follow the table from a cell, for at most `fuel` cells. -/
def collectChain (next : α → Option α) : Nat → α → List α
  | 0, _ => []
  | fuel + 1, c =>
    c :: match next c with
      | some c' => collectChain next fuel c'
      | none => []

/-- Each cell of the list names the one after it, and the last names none. -/
def Linked (next : α → Option α) : List α → Prop
  | [] => True
  | [c] => next c = none
  | c :: c' :: rest => next c = some c' ∧ Linked next (c' :: rest)

namespace Linked

variable {next next' : α → Option α} {l : List α} {c : α}

theorem tail (h : Linked next (c :: l)) : Linked next l := by
  cases l with
  | nil => trivial
  | cons c' rest => exact h.2

theorem next_head (h : Linked next (c :: l)) : next c = l.head? := by
  cases l with
  | nil => exact h
  | cons c' rest => exact h.1

theorem cons_iff : Linked next (c :: l) ↔ next c = l.head? ∧ Linked next l := by
  cases l with
  | nil => simp [Linked]
  | cons c' rest => simp [Linked]

theorem congr (h : Linked next l) (heq : ∀ c ∈ l, next' c = next c) : Linked next' l := by
  induction l with
  | nil => trivial
  | cons c rest ih =>
    rw [cons_iff] at h ⊢
    refine ⟨?_, ih h.2 fun c' hc' => heq c' (List.mem_cons_of_mem c hc')⟩
    rw [heq c List.mem_cons_self, h.1]

theorem getLast?_eq (h : Linked next l) (hc : c ∈ l) (hnone : next c = none) :
    l.getLast? = some c := by
  induction l with
  | nil => cases hc
  | cons a rest ih =>
    rw [cons_iff] at h
    rcases List.mem_cons.mp hc with rfl | hmem
    · rw [h.1, List.head?_eq_none_iff] at hnone
      rw [hnone]
      rfl
    · cases rest with
      | nil => cases hmem
      | cons b rest =>
        rw [List.getLast?_cons_cons]
        exact ih h.2 hmem

theorem concat (h : Linked next l) (hnodup : l.Nodup) {new : α} (hnew : new ∉ l)
    (hold : ∀ c ∈ l, c ∉ l.getLast? → next' c = next c)
    (hlast : ∀ c ∈ l.getLast?, next' c = some new) (hend : next' new = none) :
    Linked next' (l ++ [new]) := by
  induction l with
  | nil => exact hend
  | cons c rest ih =>
    cases rest with
    | nil => exact ⟨hlast c rfl, hend⟩
    | cons c' rest =>
      rw [List.nodup_cons] at hnodup
      have hne : c ∉ (c :: c' :: rest).getLast? := by
        intro hc
        rw [Option.mem_def, List.getLast?_cons_cons] at hc
        exact hnodup.1 (List.mem_of_getLast? hc)
      refine ⟨?_, ih h.2 hnodup.2 (fun hmem => hnew (List.mem_cons_of_mem c hmem))
        (fun d hd hlast' => ?_) fun d hd => ?_⟩
      · rw [hold c List.mem_cons_self hne, h.1]
      · refine hold d (List.mem_cons_of_mem c hd) ?_
        rwa [List.getLast?_cons_cons]
      · apply hlast
        rwa [List.getLast?_cons_cons]

/-- Following the table from the first cell of a chain yields the chain, as far as the
fuel goes. -/
theorem collectChain_eq_take (h : Linked next (c :: l)) (fuel : Nat) :
    collectChain next fuel c = (c :: l).take fuel := by
  induction fuel generalizing c l with
  | zero => rfl
  | succ fuel ih =>
    rw [collectChain, List.take_succ_cons, h.next_head]
    cases l with
    | nil => rw [List.take_nil]; rfl
    | cons c' rest => exact congrArg (c :: ·) (ih h.tail)

theorem collectChain_eq (h : Linked next (c :: l)) {fuel : Nat}
    (hfuel : (c :: l).length ≤ fuel) : collectChain next fuel c = c :: l := by
  rw [h.collectChain_eq_take, List.take_of_length_le hfuel]

theorem drop (h : Linked next l) (k : Nat) : Linked next (l.drop k) := by
  induction k generalizing l with
  | zero => exact h
  | succ k ih =>
    cases l with
    | nil => trivial
    | cons c rest => exact ih h.tail

end Linked

theorem eq_of_mem_chains {chains : List (List α)} (h : chains.flatten.Nodup)
    {l l' : List α} (hl : l ∈ chains) (hl' : l' ∈ chains) {c : α} (hc : c ∈ l)
    (hc' : c ∈ l') : l = l' := by
  induction chains with
  | nil => cases hl
  | cons first rest ih =>
    rw [List.flatten_cons, List.nodup_append] at h
    obtain ⟨-, hrest, hapart⟩ := h
    rcases List.mem_cons.mp hl with heq | hin
    · rcases List.mem_cons.mp hl' with heq' | hin'
      · exact heq.trans heq'.symm
      · exact absurd rfl (hapart c (heq ▸ hc) c (List.mem_flatten.mpr ⟨l', hin', hc'⟩))
    · rcases List.mem_cons.mp hl' with heq' | hin'
      · exact absurd rfl (hapart c (heq' ▸ hc') c (List.mem_flatten.mpr ⟨l, hin, hc⟩))
      · exact ih hrest hin hin'

end ZiqaKernel
