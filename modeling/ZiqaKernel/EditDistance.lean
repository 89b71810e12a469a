/-
The distance between two sequences in single insertions, deletions and
substitutions, and the table by which the shell computes it for the command it
suggests (`levenshtein_distance` of `shell.rs`).
-/
import Mathlib

namespace ZiqaKernel

section

variable {α : Type}

inductive Edit : List α → List α → Prop
  | insert (u v : List α) (x : α) : Edit (u ++ v) (u ++ x :: v)
  | delete (u v : List α) (x : α) : Edit (u ++ x :: v) (u ++ v)
  | substitute (u v : List α) (x y : α) : Edit (u ++ x :: v) (u ++ y :: v)

inductive Edits : Nat → List α → List α → Prop
  | refl (s : List α) : Edits 0 s s
  | step {n : Nat} {s t u : List α} : Edit s t → Edits n t u → Edits (n + 1) s u

variable {n m : Nat} {s t u : List α}

theorem Edit.symm (h : Edit s t) : Edit t s := by
  cases h with
  | insert u v x => exact .delete u v x
  | delete u v x => exact .insert u v x
  | substitute u v x y => exact .substitute u v y x

theorem Edit.reverse (h : Edit s t) : Edit s.reverse t.reverse := by
  cases h with
  | insert u v x => simpa using Edit.insert v.reverse u.reverse x
  | delete u v x => simpa using Edit.delete v.reverse u.reverse x
  | substitute u v x y => simpa using Edit.substitute v.reverse u.reverse x y

theorem Edit.cons (x : α) (h : Edit s t) : Edit (x :: s) (x :: t) := by
  cases h with
  | insert u v y => exact .insert (x :: u) v y
  | delete u v y => exact .delete (x :: u) v y
  | substitute u v y z => exact .substitute (x :: u) v y z

theorem Edits.map {f : List α → List α} (hf : ∀ {s t}, Edit s t → Edit (f s) (f t))
    (h : Edits n s t) : Edits n (f s) (f t) := by
  induction h with
  | refl s => exact .refl (f s)
  | step hedit _ ih => exact .step (hf hedit) ih

theorem Edits.trans (h : Edits n s t) (h' : Edits m t u) : Edits (n + m) s u := by
  induction h with
  | refl s => rwa [Nat.zero_add]
  | step hedit _ ih =>
    rw [Nat.add_right_comm]
    exact .step hedit (ih h')

theorem Edits.symm (h : Edits n s t) : Edits n t s := by
  induction h with
  | refl s => exact .refl s
  | step hedit _ ih => exact ih.trans (.step hedit.symm (.refl _))

theorem edits_zero_iff : Edits 0 s t ↔ s = t := by
  constructor
  · intro h
    cases h
    rfl
  · rintro rfl
    exact .refl s

theorem edits_nil (t : List α) : Edits t.length [] t := by
  induction t with
  | nil => exact .refl []
  | cons x t ih => exact ih.trans (.step (.insert [] t x) (.refl _))

def editDistance [DecidableEq α] : List α → List α → Nat
  | [], t => t.length
  | x :: s, [] => (x :: s).length
  | x :: s, y :: t =>
    min (min (editDistance s (y :: t) + 1) (editDistance (x :: s) t + 1))
      (editDistance s t + if x = y then 0 else 1)

variable [DecidableEq α]

theorem editDistance_nil_right (s : List α) : editDistance s [] = s.length := by
  cases s <;> simp [editDistance]

theorem editDistance_cons_left (x : α) (s t : List α) :
    editDistance (x :: s) t ≤ editDistance s t + 1 := by
  cases t with
  | nil => simp [editDistance_nil_right]
  | cons y t =>
    rw [editDistance]
    omega

theorem editDistance_cons_right (s : List α) (y : α) (t : List α) :
    editDistance s (y :: t) ≤ editDistance s t + 1 := by
  cases s with
  | nil => simp [editDistance]
  | cons x s =>
    rw [editDistance]
    omega

theorem editDistance_cons_cons (x y : α) (s t : List α) :
    editDistance (x :: s) (y :: t) ≤ editDistance s t + 1 := by
  rw [editDistance]
  split <;> omega

/-- The distances of two sequences to any third one differ by at most one. -/
def Nearby (s t : List α) : Prop := ∀ u, editDistance s u ≤ editDistance t u + 1

theorem nearby_delete (x : α) (s : List α) : Nearby s (x :: s) := by
  intro u
  induction u with
  | nil =>
    simp only [editDistance_nil_right, List.length_cons]
    omega
  | cons y u ih =>
    have hright := editDistance_cons_right s y u
    rw [editDistance]
    omega

theorem nearby_substitute (x y : α) (s : List α) : Nearby (x :: s) (y :: s) := by
  intro u
  induction u with
  | nil => simp [editDistance_nil_right]
  | cons z u ih =>
    have hleft := editDistance_cons_left x s (z :: u)
    have hright := editDistance_cons_right (x :: s) z u
    have hboth := editDistance_cons_cons x z s u
    rw [editDistance.eq_3 y]
    omega

theorem Nearby.cons (x : α) (h : Nearby s t) : Nearby (x :: s) (x :: t) := by
  intro u
  induction u with
  | nil =>
    have hlength := h []
    simp only [editDistance_nil_right, List.length_cons] at hlength ⊢
    omega
  | cons y u ih =>
    have hfirst := h (y :: u)
    have hrest := h u
    rw [editDistance, editDistance]
    omega

theorem Nearby.append (h : Nearby s t) (u : List α) : Nearby (u ++ s) (u ++ t) := by
  induction u with
  | nil => exact h
  | cons x u ih => exact ih.cons x

theorem Edit.nearby (h : Edit s t) : Nearby s t := by
  cases h with
  | insert u v x => exact Nearby.append (nearby_delete x v) u
  | delete u v x => exact Nearby.append (editDistance_cons_left x v) u
  | substitute u v x y => exact Nearby.append (nearby_substitute x y v) u

theorem editDistance_self (s : List α) : editDistance s s = 0 := by
  induction s with
  | nil => exact editDistance_nil_right []
  | cons x s ih => simp [editDistance, ih]

theorem editDistance_le (h : Edits n s t) : editDistance s t ≤ n := by
  induction h with
  | refl s => exact (editDistance_self s).le
  | @step n s t u hedit _ ih =>
    have := hedit.nearby u
    omega

theorem edits_editDistance (s t : List α) : Edits (editDistance s t) s t := by
  induction s, t using editDistance.induct with
  | case1 t =>
    rw [editDistance]
    exact edits_nil t
  | case2 x s =>
    rw [editDistance]
    exact (edits_nil (x :: s)).symm
  | case3 x s y t hdelete hinsert hboth =>
    have hlast : Edits (editDistance s t + if x = y then 0 else 1) (x :: s) (y :: t) := by
      have hkept := hboth.map (Edit.cons y)
      split
      · next h => rwa [h]
      · rw [Nat.add_comm]
        exact (Edits.step (.substitute [] s x y) (.refl _)).trans hkept
    have hfirst : Edits (editDistance s (y :: t) + 1) (x :: s) (y :: t) :=
      .step (.delete [] s x) hdelete
    have hsecond : Edits (editDistance (x :: s) t + 1) (x :: s) (y :: t) :=
      hinsert.trans (.step (.insert [] t y) (.refl _))
    rw [editDistance]
    rcases min_choice (min (editDistance s (y :: t) + 1) (editDistance (x :: s) t + 1))
      (editDistance s t + if x = y then 0 else 1) with h | h <;> rw [h]
    · rcases min_choice (editDistance s (y :: t) + 1) (editDistance (x :: s) t + 1)
        with h' | h' <;> rwa [h']
    · exact hlast

theorem editDistance_isLeast (s t : List α) : IsLeast {n | Edits n s t} (editDistance s t) :=
  ⟨edits_editDistance s t, fun _ h => editDistance_le h⟩

end

/-- One assignment of the inner loop, `i` and `j` being counted from one.  A row of the
table is given by its entries. -/
def levenshteinCell (a b : List UInt8) (i : Nat) (prev curr : Nat → Nat) (j : Nat) : Nat → Nat :=
  let cost := if a[i - 1]? = b[j - 1]? then 0 else 1
  Function.update curr j (min (min (prev j + 1) (curr (j - 1) + 1)) (prev (j - 1) + cost))

/-- One round of the outer loop.  The two rows are swapped at its end. -/
def levenshteinRow (a b : List UInt8) (rows : (Nat → Nat) × (Nat → Nat)) (i : Nat) :
    (Nat → Nat) × (Nat → Nat) :=
  let curr := Function.update rows.2 0 i
  ((List.range' 1 b.length).foldl (levenshteinCell a b i rows.1) curr, rows.1)

/-- `levenshtein_distance`, on the bytes of the two strings. -/
def levenshteinDistance (a b : List UInt8) : Nat :=
  if a.length = 0 then b.length
  else if b.length = 0 then a.length
  else ((List.range' 1 a.length).foldl (levenshteinRow a b) (id, fun _ => 0)).1 b.length

variable {a b : List UInt8} {i j : Nat}

/-- What the table is to hold: the distance of two starts, read from their ends. -/
def startDistance (a b : List UInt8) (i j : Nat) : Nat :=
  editDistance (a.take i).reverse (b.take j).reverse

theorem reverse_take_succ (h : i < a.length) :
    (a.take (i + 1)).reverse = a[i] :: (a.take i).reverse := by
  rw [List.take_succ_eq_append_getElem h, List.reverse_append]
  rfl

theorem startDistance_zero_right (h : i ≤ a.length) : startDistance a b i 0 = i := by
  simp [startDistance, editDistance_nil_right, h]

theorem startDistance_zero_left (h : j ≤ b.length) : startDistance a b 0 j = j := by
  simp [startDistance, editDistance, h]

theorem startDistance_succ (hi : i < a.length) (hj : j < b.length) :
    startDistance a b (i + 1) (j + 1) =
      min (min (startDistance a b i (j + 1) + 1) (startDistance a b (i + 1) j + 1))
        (startDistance a b i j + if a[i]? = b[j]? then 0 else 1) := by
  simp only [startDistance, reverse_take_succ hi, reverse_take_succ hj, editDistance,
    List.getElem?_eq_getElem hi, List.getElem?_eq_getElem hj, Option.some.injEq]

/-- Row `i` of the table is there up to column `k`. -/
def RowDone (a b : List UInt8) (i k : Nat) (row : Nat → Nat) : Prop :=
  ∀ j ≤ k, row j = startDistance a b i j

theorem rowDone_cell {prev curr : Nat → Nat} {k : Nat} (hi : i < a.length) (hk : k < b.length)
    (hprev : RowDone a b i b.length prev) (hcurr : RowDone a b (i + 1) k curr) :
    RowDone a b (i + 1) (k + 1) (levenshteinCell a b (i + 1) prev curr (k + 1)) := by
  intro j hj
  unfold levenshteinCell
  by_cases hlast : j = k + 1
  · rw [hlast, Function.update_self, startDistance_succ hi hk, hprev _ (by omega),
      hprev _ (by omega), hcurr _ (by omega)]
    simp only [Nat.add_sub_cancel]
  · rw [Function.update_of_ne hlast]
    exact hcurr j (by omega)

theorem rowDone_cells {prev curr : Nat → Nat} (hi : i < a.length)
    (hprev : RowDone a b i b.length prev) (hcurr : RowDone a b (i + 1) 0 curr) (k : Nat)
    (hk : k ≤ b.length) : RowDone a b (i + 1) k
      ((List.range' 1 k).foldl (levenshteinCell a b (i + 1) prev) curr) := by
  induction k with
  | zero => exact hcurr
  | succ k ih =>
    rw [List.range'_1_concat, List.foldl_append, Nat.add_comm 1 k]
    exact rowDone_cell hi hk hprev (ih (by omega))

theorem rowDone_rows (a b : List UInt8) (i : Nat) (hi : i ≤ a.length) :
    RowDone a b i b.length
      ((List.range' 1 i).foldl (levenshteinRow a b) (id, fun _ => 0)).1 := by
  induction i with
  | zero =>
    intro j hj
    exact (startDistance_zero_left hj).symm
  | succ i ih =>
    rw [List.range'_1_concat, List.foldl_append, Nat.add_comm 1 i]
    apply rowDone_cells hi (ih (by omega)) _ _ le_rfl
    intro j hj
    obtain rfl : j = 0 := by omega
    rw [Function.update_self, startDistance_zero_right hi]

theorem levenshteinDistance_eq (a b : List UInt8) :
    levenshteinDistance a b = editDistance a.reverse b.reverse := by
  rw [levenshteinDistance]
  split
  · next h => simp [List.length_eq_zero_iff.mp h, editDistance]
  split
  · next h => simp [List.length_eq_zero_iff.mp h, editDistance_nil_right]
  · rw [rowDone_rows a b a.length le_rfl b.length le_rfl, startDistance, List.take_length,
      List.take_length]

theorem levenshteinDistance_isLeast (a b : List UInt8) :
    IsLeast {n | Edits n a b} (levenshteinDistance a b) := by
  have hreverse (n : Nat) : Edits n a.reverse b.reverse ↔ Edits n a b := by
    constructor <;> intro h <;> simpa using h.map Edit.reverse
  simpa only [levenshteinDistance_eq, hreverse] using editDistance_isLeast a.reverse b.reverse

/-- The distance of the shell is the least number of edits, and so a metric. -/
theorem levenshteinDistance_metric (a b c : List UInt8) :
    IsLeast {n | Edits n a b} (levenshteinDistance a b) ∧
      levenshteinDistance a b = levenshteinDistance b a ∧
      (levenshteinDistance a b = 0 ↔ a = b) ∧
      levenshteinDistance a c ≤ levenshteinDistance a b + levenshteinDistance b c := by
  have least := levenshteinDistance_isLeast
  refine ⟨least a b, ?_, ?_, ?_⟩
  · exact le_antisymm ((least a b).2 (least b a).1.symm) ((least b a).2 (least a b).1.symm)
  · constructor
    · intro h
      exact edits_zero_iff.mp (h ▸ (least a b).1)
    · intro h
      exact Nat.le_zero.mp ((least a b).2 (edits_zero_iff.mpr h))
  · exact (least a c).2 ((least a b).1.trans (least b c).1)

example : levenshteinDistance [107, 105, 116] [115, 105, 116, 116] = 2 := by decide

end ZiqaKernel
