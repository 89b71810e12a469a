/-
Walks over records that lie one behind the other.  The record at an offset says
how long it is; two walks over the same records that stop for different reasons
visit the same offsets until one of them stops.
-/
import Mathlib

namespace ZiqaKernel

/-- The offsets that a walk from the start visits: it goes on behind the record
at `off` when `goesOn off`. -/
inductive Walk (size : Nat → Nat) (goesOn : Nat → Prop) : Nat → Prop
  | start : Walk size goesOn 0
  | next {off : Nat} (h : Walk size goesOn off) (hon : goesOn off) :
      Walk size goesOn (off + size off)

namespace Walk

variable {size size' : Nat → Nat} {P Q : Nat → Prop} {a b : Nat}

/-- A record that one walk visits before an offset of another walk is one that
the other walk has gone past. -/
theorem passed (hP : ∀ off, P off → 0 < size off) (hQ : ∀ off, Q off → 0 < size off)
    (ha : Walk size P a) (hb : Walk size Q b) (hlt : a < b) :
    Q a ∧ a + size a ≤ b := by
  induction hn : a + b using Nat.strongRecOn generalizing a b P Q with
  | _ n ih =>
    cases hb with
    | start => exact absurd hlt (Nat.not_lt_zero a)
    | @next b hb hon =>
      have hpos := hQ b hon
      rcases Nat.lt_trichotomy a b with hab | rfl | hba
      · obtain ⟨hQa, hle⟩ := ih (a + b) (by omega) hP hQ ha hb hab rfl
        exact ⟨hQa, by omega⟩
      · exact ⟨hon, Nat.le_refl _⟩
      · -- with the walks exchanged: the first one has gone past `b`
        obtain ⟨-, hle⟩ := ih (b + a) (by omega) hQ hP hb ha hba rfl
        omega

theorem congr (h : Walk size P a)
    (hsame : ∀ off, Walk size' Q off → P off → Q off ∧ size' off = size off) :
    Walk size' Q a := by
  induction h with
  | start => exact .start
  | next _ hon ih =>
    obtain ⟨hQ, hsize⟩ := hsame _ ih hon
    exact hsize ▸ ih.next hQ

end Walk

end ZiqaKernel
