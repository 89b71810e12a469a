/-
Computations that end with a value, are refused with an error, or fault, and the
conditions under which they do not fault.
-/
import Mathlib

namespace ZiqaKernel

inductive Ending (ε : Type) where
  | refused (e : ε)
  | fault
deriving DecidableEq

variable {ε α β : Type}

/-- The computation does not fault, and its value, if it has one, satisfies `K`. -/
def Returns (x : Except (Ending ε) α) (K : α → Prop) : Prop :=
  match x with
  | .ok a => K a
  | .error (.refused _) => True
  | .error .fault => False

variable (x : Except (Ending ε) α)

theorem returns_true_iff :
    Returns x (fun _ => True) ↔ x ≠ .error .fault := by
  cases x with
  | ok a => exact iff_of_true trivial fun h => by cases h
  | error ending =>
    cases ending with
    | refused e => exact iff_of_true trivial fun h => by cases h
    | fault => exact iff_of_false id fun h => h rfl

@[simp]
theorem returns_pure (a : α) (K : α → Prop) :
    Returns (pure a : Except (Ending ε) α) K ↔ K a := Iff.rfl

@[simp]
theorem returns_refused (e : ε) (K : α → Prop) :
    Returns (.error (.refused e) : Except (Ending ε) α) K ↔ True := Iff.rfl

@[simp]
theorem returns_fault (K : α → Prop) :
    Returns (.error .fault : Except (Ending ε) α) K ↔ False := Iff.rfl

@[simp]
theorem returns_bind (f : α → Except (Ending ε) β)
    (K : β → Prop) : Returns (x >>= f) K ↔ Returns x fun a => Returns (f a) K := by
  cases x with
  | ok a => exact Iff.rfl
  | error ending =>
    cases ending with
    | refused e => exact Iff.rfl
    | fault => exact Iff.rfl

theorem Returns.mono {x : Except (Ending ε) α} {K K' : α → Prop} (h : Returns x K)
    (himp : ∀ a, K a → K' a) : Returns x K' := by
  cases x with
  | ok a => exact himp a h
  | error ending =>
    cases ending with
    | refused e => trivial
    | fault => exact h

theorem returns_congr {x : Except (Ending ε) α} {K K' : α → Prop}
    (hiff : ∀ a, K a ↔ K' a) : Returns x K ↔ Returns x K' :=
  ⟨fun h => h.mono fun a => (hiff a).mp, fun h => h.mono fun a => (hiff a).mpr⟩

theorem returns_iff (K : α → Prop) :
    Returns x K ↔ Returns x (fun _ => True) ∧ ∀ a, x = .ok a → K a := by
  cases x with
  | ok a =>
    refine ⟨fun h => ⟨trivial, ?_⟩, fun h => h.2 a rfl⟩
    rintro _ ⟨⟩
    exact h
  | error ending =>
    cases ending with
    | refused e => exact iff_of_true trivial ⟨trivial, fun a h => by cases h⟩
    | fault => exact iff_of_false id fun h => h.1

end ZiqaKernel
