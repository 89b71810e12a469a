/-
Families of references in which zero stands for "no reference": no target is
referenced from two positions, and every target is marked as used.
-/
import Mathlib

namespace ZiqaKernel

variable {P B : Type} [Zero B]

/-- Every nonzero target of `r` is used and has exactly one position. -/
structure Exclusive (r : P → B) (used : B → Prop) : Prop where
  unique : ∀ {p q : P}, r p ≠ 0 → r p = r q → p = q
  used : ∀ {p : P}, r p ≠ 0 → used (r p)

namespace Exclusive

variable {r r' : P → B} {used used' : B → Prop}

theorem ne (h : Exclusive r used) {p q : P} (hp : r p ≠ 0) (hne : p ≠ q) : r p ≠ r q :=
  fun heq => hne (h.unique hp heq)

/-- A change of the family keeps it exclusive when targets that were used
before stay at their positions and targets that were not used before appear
at one position each. -/
theorem extend (h : Exclusive r used) (hold : ∀ p, r' p ≠ 0 → used (r' p) → r' p = r p)
    (hnew : ∀ p q, r' p ≠ 0 → ¬ used (r' p) → r' p = r' q → p = q)
    (hused : ∀ p, r' p ≠ 0 → used' (r' p)) : Exclusive r' used' where
  unique {p q} hp heq := by
    by_cases hu : used (r' p)
    · have hq : r' q ≠ 0 := heq ▸ hp
      have hrp := hold p hp hu
      have hrq := hold q hq (heq ▸ hu)
      exact h.unique (hrp ▸ hp) (by rw [← hrp, ← hrq, heq])
    · exact hnew p q hp hu heq
  used {p} hp := hused p hp

theorem restrict (h : Exclusive r used) (hsub : ∀ p, r' p ≠ 0 → r' p = r p)
    (hused : ∀ p, r' p ≠ 0 → used' (r' p)) : Exclusive r' used' :=
  h.extend (fun p hp _ => hsub p hp)
    (fun p _ hp hu _ => absurd (hsub p hp ▸ h.used (hsub p hp ▸ hp)) hu) hused

end Exclusive

end ZiqaKernel
