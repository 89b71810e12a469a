/-
Runs of a system that takes one step after another: properties of every state
of a run, conditions on every step of it, and the rule that relates the two.
-/
import Mathlib

namespace ZiqaKernel

variable {S O : Type} {step : O → S → S}

/-- The property holds in every state of a run, the first and the last included. -/
def AlongRun (step : O → S → S) (P : S → Prop) : List O → S → Prop
  | [], s => P s
  | o :: ops, s => P s ∧ AlongRun step P ops (step o s)

/-- Every step of a run meets a condition in the state in which it is taken. -/
def EachStep (step : O → S → S) (C : O → S → Prop) : List O → S → Prop
  | [], _ => True
  | o :: ops, s => C o s ∧ EachStep step C ops (step o s)

variable {P : S → Prop} {ops : List O} {s : S}

theorem AlongRun.first (h : AlongRun step P ops s) : P s := by
  cases ops with
  | nil => exact h
  | cons o ops => exact h.1

theorem AlongRun.last (h : AlongRun step P ops s) : P (ops.foldl (fun s o => step o s) s) := by
  induction ops generalizing s with
  | nil => exact h
  | cons o ops ih => exact ih h.2

theorem AlongRun.imp {Q : S → Prop} (h : AlongRun step P ops s)
    (himp : ∀ s, P s → Q s) : AlongRun step Q ops s := by
  induction ops generalizing s with
  | nil => exact himp s h
  | cons o ops ih => exact ⟨himp s h.1, ih h.2⟩

theorem eachStep_true (ops : List O) (s : S) : EachStep step (fun _ _ => True) ops s := by
  induction ops generalizing s with
  | nil => trivial
  | cons o ops ih => exact ⟨trivial, ih (step o s)⟩

variable {C : O → S → Prop}

theorem EachStep.imp {C' : O → S → Prop} (himp : ∀ o s, C o s → C' o s)
    (h : EachStep step C ops s) : EachStep step C' ops s := by
  induction ops generalizing s with
  | nil => trivial
  | cons o ops ih => exact ⟨himp o s h.1, ih h.2⟩

theorem eachStep_append {ops' : List O} : EachStep step C (ops ++ ops') s ↔
      EachStep step C ops s ∧ EachStep step C ops' (ops.foldl (fun s o => step o s) s) := by
  induction ops generalizing s with
  | nil => exact ⟨fun h => ⟨trivial, h⟩, fun h => h.2⟩
  | cons o ops ih => exact (and_congr_right fun _ => ih).trans and_assoc.symm

theorem not_eachStep_of_second {o o' : O}
    (h : ¬ C o' (step o s)) : ¬ EachStep step C (o :: o' :: ops) s := fun hall => h hall.2.1

/-- Where steps that meet the condition `C` keep a property, a run of such steps has it
throughout. -/
theorem alongRun_of_eachStep (hstep : ∀ o s, P s → C o s → P (step o s)) (h : P s)
    (hc : EachStep step C ops s) : AlongRun step P ops s := by
  induction ops generalizing s with
  | nil => exact h
  | cons o ops ih => exact ⟨h, ih (hstep o s h hc.1) hc.2⟩

/-- What steps that meet the condition `C` do in states with a property that they keep,
every step of such a run does. -/
theorem eachStep_of_eachStep {D : O → S → Prop}
    (hstep : ∀ o s, P s → C o s → P (step o s) ∧ D o s) (h : P s)
    (hc : EachStep step C ops s) : EachStep step D ops s := by
  induction ops generalizing s with
  | nil => trivial
  | cons o ops ih =>
    obtain ⟨hnext, hd⟩ := hstep o s h hc.1
    exact ⟨hd, ih hnext hc.2⟩

/-- Two conditions that agree on the steps of a run, in the states that the run can be in,
hold along it together. -/
theorem eachStep_congr {D D' : O → S → Prop}
    (hstep : ∀ o s, P s → C o s → P (step o s) ∧ (D o s ↔ D' o s)) (h : P s)
    (hc : EachStep step C ops s) : EachStep step D ops s ↔ EachStep step D' ops s := by
  induction ops generalizing s with
  | nil => exact Iff.rfl
  | cons o ops ih =>
    obtain ⟨hnext, hiff⟩ := hstep o s h hc.1
    exact and_congr hiff (ih hnext hc.2)

/-- Where a step of the domain `D` keeps the property exactly under the condition
`C`, a run has it throughout exactly when all of its steps meet the condition. -/
theorem alongRun_iff {B : S → Prop} {D : O → S → Prop} (hbase : ∀ o s, B s → D o s → B (step o s))
    (hstep : ∀ o s, B s → D o s → P s → (P (step o s) ↔ C o s))
    (hs : B s) (h : P s) (hdomain : EachStep step D ops s) :
    AlongRun step P ops s ↔ EachStep step C ops s := by
  induction ops generalizing s with
  | nil => exact iff_of_true h trivial
  | cons o ops ih =>
    obtain ⟨hd, hrest⟩ := hdomain
    have hiff := hstep o s hs hd h
    constructor
    · rintro ⟨-, halong⟩
      have hnext := halong.first
      exact ⟨hiff.mp hnext, (ih (hbase o s hs hd) hnext hrest).mp halong⟩
    · rintro ⟨hc, heach⟩
      have hnext := hiff.mpr hc
      exact ⟨h, (ih (hbase o s hs hd) hnext hrest).mpr heach⟩

end ZiqaKernel
