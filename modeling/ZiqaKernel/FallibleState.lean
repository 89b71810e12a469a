/-
Computations that carry a state and may stop with an error.  Unlike a state
monad stacked on top of `Except`, the state reached when the error occurs is
part of the outcome, so partial effects of a failed call stay visible.
-/
import Mathlib

namespace ZiqaKernel

variable {σ ε α β : Type}

/-- A stateful computation whose outcome is a value or an error, together with
the state in which it stopped. -/
structure Fallible (σ ε α : Type) where
  run : σ → Except ε α × σ

namespace Fallible

/-- Sequential composition: an error ends the computation where it occurs. -/
def andThen (first : Fallible σ ε α) (next : α → Fallible σ ε β) : Fallible σ ε β where
  run s :=
    match first.run s with
    | (.ok a, s') => (next a).run s'
    | (.error e, s') => (.error e, s')

instance : Monad (Fallible σ ε) where
  pure a := ⟨fun s => (.ok a, s)⟩
  bind := andThen

def fail (e : ε) : Fallible σ ε α := ⟨fun s => (.error e, s)⟩

def gets (f : σ → α) : Fallible σ ε α := ⟨fun s => (.ok (f s), s)⟩

def modify (f : σ → σ) : Fallible σ ε Unit := ⟨fun s => (.ok (), f s)⟩

/-- Run a computation for its effect and hand its outcome to the caller. -/
def attempt (x : Fallible σ ε α) : Fallible σ ε (Except ε α) :=
  ⟨fun s => (.ok (x.run s).1, (x.run s).2)⟩

def ofOption (e : ε) : Option α → Fallible σ ε α
  | some a => pure a
  | none => fail e

@[simp]
theorem run_pure (a : α) (s : σ) : (pure a : Fallible σ ε α).run s = (.ok a, s) := rfl

@[simp]
theorem run_fail (e : ε) (s : σ) : (fail e : Fallible σ ε α).run s = (.error e, s) := rfl

@[simp]
theorem run_gets (f : σ → α) (s : σ) : (gets f : Fallible σ ε α).run s = (.ok (f s), s) := rfl

@[simp]
theorem run_modify (f : σ → σ) (s : σ) : (modify f : Fallible σ ε Unit).run s = (.ok (), f s) := rfl

@[simp]
theorem run_attempt (x : Fallible σ ε α) (s : σ) :
    (attempt x).run s = (.ok (x.run s).1, (x.run s).2) := rfl

theorem run_bind (x : Fallible σ ε α) (f : α → Fallible σ ε β) (s : σ) : (x >>= f).run s =
      match x.run s with
      | (.ok a, s') => (f a).run s'
      | (.error e, s') => (.error e, s') := rfl

variable {x : Fallible σ ε α} {f : α → Fallible σ ε β} {s s' s'' : σ} {a : α} {e : ε}

theorem run_bind_of_ok (h : x.run s = (.ok a, s')) : (x >>= f).run s = (f a).run s' := by
  rw [run_bind, h]

theorem run_bind_of_error (h : x.run s = (.error e, s')) : (x >>= f).run s = (.error e, s') := by
  rw [run_bind, h]

theorem run_eq_of_fst {r : Except ε α} (h : (x.run s).1 = r) : x.run s = (r, (x.run s).2) :=
  Prod.ext h rfl

theorem run_pure_eq_ok_iff {a b : α} :
    (pure a : Fallible σ ε α).run s = (.ok b, s') ↔ a = b ∧ s = s' := by
  rw [run_pure, Prod.mk.injEq, Except.ok.injEq]

theorem run_bind_eq_ok_iff {b : β} : (x >>= f).run s = (.ok b, s'') ↔
      ∃ a s', x.run s = (.ok a, s') ∧ (f a).run s' = (.ok b, s'') := by
  constructor
  · intro h
    rcases hx : x.run s with ⟨r, s'⟩
    cases r with
    | error e => simp [run_bind_of_error hx] at h
    | ok a => exact ⟨a, s', rfl, by rw [← run_bind_of_ok hx, h]⟩
  · rintro ⟨a, s', hx, hf⟩
    rw [run_bind_of_ok hx, hf]

theorem run_bind_eq_error_iff : (x >>= f).run s = (.error e, s'') ↔ x.run s = (.error e, s'') ∨
        ∃ a s', x.run s = (.ok a, s') ∧ (f a).run s' = (.error e, s'') := by
  constructor
  · intro h
    rcases hx : x.run s with ⟨r, s'⟩
    cases r with
    | error e' =>
      rw [run_bind_of_error hx] at h
      simp only [Prod.mk.injEq, Except.error.injEq] at h
      exact Or.inl (by rw [h.1, h.2])
    | ok a => exact Or.inr ⟨a, s', rfl, by rw [← run_bind_of_ok hx, h]⟩
  · rintro (hx | ⟨a, s', hx, hf⟩)
    · exact run_bind_of_error hx
    · rw [run_bind_of_ok hx, hf]

theorem run_ofOption_eq_ok_iff {o : Option α} :
    (ofOption e o : Fallible σ ε α).run s = (.ok a, s') ↔ o = some a ∧ s = s' := by
  cases o with
  | none => simp [ofOption]
  | some b => simp [ofOption]

/-- Partial correctness with an exceptional postcondition: from every state
satisfying `P`, a normal outcome satisfies `Q` and an error leaves a state
satisfying `E`. -/
structure Spec (P : σ → Prop) (x : Fallible σ ε α) (Q : α → σ → Prop)
    (E : ε → σ → Prop) : Prop where
  ok : ∀ s a s', P s → x.run s = (.ok a, s') → Q a s'
  error : ∀ s e s', P s → x.run s = (.error e, s') → E e s'

variable {P P' I : σ → Prop} {Q Q' : α → σ → Prop} {R : β → σ → Prop} {E E' F : ε → σ → Prop}
  {ι : Type}

theorem Spec.bind (hx : Spec P x Q E) (hf : ∀ a, Spec (Q a) (f a) R E) : Spec P (x >>= f) R E where
  ok s b s' hs hrun := by
    obtain ⟨a, s1, hfirst, hnext⟩ := run_bind_eq_ok_iff.mp hrun
    exact (hf a).ok s1 b s' (hx.ok s a s1 hs hfirst) hnext
  error s e s' hs hrun := by
    rcases run_bind_eq_error_iff.mp hrun with hfirst | ⟨a, s1, hfirst, hnext⟩
    · exact hx.error s e s' hs hfirst
    · exact (hf a).error s1 e s' (hx.ok s a s1 hs hfirst) hnext

theorem Spec.of_run_ok (hrun : x.run s = (.ok a, s')) (h : Q a s') : Spec (· = s) x Q E where
  ok := by
    rintro _ b s1 rfl hrun'
    simp only [hrun, Prod.mk.injEq, Except.ok.injEq] at hrun'
    obtain ⟨rfl, rfl⟩ := hrun'
    exact h
  error := by
    rintro _ e s1 rfl hrun'
    simp [hrun] at hrun'

theorem Spec.of_run_error (hrun : x.run s = (.error e, s')) (h : E e s') : Spec (· = s) x Q E where
  ok := by
    rintro _ b s1 rfl hrun'
    simp [hrun] at hrun'
  error := by
    rintro _ b s1 rfl hrun'
    simp only [hrun, Prod.mk.injEq, Except.error.injEq] at hrun'
    obtain ⟨rfl, rfl⟩ := hrun'
    exact h

theorem Spec.pointwise (h : ∀ s, P s → Spec (· = s) x Q E) : Spec P x Q E where
  ok s a s' hs := (h s hs).ok s a s' rfl
  error s e s' hs := (h s hs).error s e s' rfl

theorem Spec.any : Spec P x (fun _ _ => True) (fun _ _ => True) :=
  ⟨fun _ _ _ _ _ => trivial, fun _ _ _ _ _ => trivial⟩

theorem Spec.self :
    Spec (· = s) x (fun a s' => x.run s = (.ok a, s')) (fun e s' => x.run s = (.error e, s')) :=
  ⟨fun _ _ _ hs h => hs ▸ h, fun _ _ _ hs h => hs ▸ h⟩

theorem Spec.pure (h : ∀ s, P s → Q a s) : Spec P (Pure.pure a : Fallible σ ε α) Q E :=
  Spec.pointwise fun s hs => Spec.of_run_ok (run_pure a s) (h s hs)

theorem Spec.fail (h : ∀ s, P s → E e s) : Spec P (Fallible.fail e : Fallible σ ε α) Q E :=
  Spec.pointwise fun s hs => Spec.of_run_error (run_fail e s) (h s hs)

theorem Spec.gets {f : σ → α} :
    Spec P (Fallible.gets f : Fallible σ ε α) (fun a s => P s ∧ a = f s) E :=
  Spec.pointwise fun s hs => Spec.of_run_ok (run_gets f s) ⟨hs, rfl⟩

theorem Spec.modify {f : σ → σ} {Q : Unit → σ → Prop} (h : ∀ s, P s → Q () (f s)) :
    Spec P (Fallible.modify f : Fallible σ ε Unit) Q E :=
  Spec.pointwise fun s hs => Spec.of_run_ok (run_modify f s) (h s hs)

theorem Spec.attempt (h : Spec P x (fun _ => I) (fun _ => I)) :
    Spec P (Fallible.attempt x) (fun _ => I) E := by
  refine Spec.pointwise fun s hs => Spec.of_run_ok (run_attempt x s) ?_
  rcases hrun : x.run s with ⟨r, s'⟩
  cases r with
  | error e => exact h.error s e s' hs hrun
  | ok a => exact h.ok s a s' hs hrun

theorem Spec.ofOption {o : Option α} (h : ∀ s, P s → E e s) :
    Spec P (Fallible.ofOption e o) (fun a s => P s ∧ o = some a) E := by
  cases o with
  | none => exact Spec.fail h
  | some a => exact Spec.pure fun s hs => ⟨hs, rfl⟩

theorem Spec.consequence (hx : Spec P x Q E) (hP : ∀ s, P' s → P s) (hQ : ∀ a s, Q a s → Q' a s)
    (hE : ∀ e s, E e s → E' e s) : Spec P' x Q' E' where
  ok s a s' hs hrun := hQ a s' (hx.ok s a s' (hP s hs) hrun)
  error s e s' hs hrun := hE e s' (hx.error s e s' (hP s hs) hrun)

theorem Spec.and (h : Spec P x Q E) (h' : Spec P x Q' E') :
    Spec P x (fun a s => Q a s ∧ Q' a s) (fun e s => E e s ∧ E' e s) where
  ok s a s' hs hrun := ⟨h.ok s a s' hs hrun, h'.ok s a s' hs hrun⟩
  error s e s' hs hrun := ⟨h.error s e s' hs hrun, h'.error s e s' hs hrun⟩

theorem Spec.pre (hP : ∀ s, P' s → P s) (hx : Spec P x Q E) : Spec P' x Q E :=
  hx.consequence hP (fun _ _ h => h) (fun _ _ h => h)

theorem Spec.assume {φ : Prop} (h : φ → Spec P x Q E) : Spec (fun s => P s ∧ φ) x Q E where
  ok s a s' hs := (h hs.2).ok s a s' hs.1
  error s e s' hs := (h hs.2).error s e s' hs.1

theorem Spec.andThen (hx : Spec P x Q F)
    (hE : ∀ e s, F e s → E e s) (hf : ∀ a, Spec (Q a) (f a) R E) :
    Spec P (x >>= f) R E :=
  (hx.consequence (fun _ h => h) (fun _ _ h => h) hE).bind hf

theorem Spec.ite {c : Prop} [Decidable c] {y : Fallible σ ε α}
    (hx : c → Spec P x Q E) (hy : ¬ c → Spec P y Q E) :
    Spec P (if c then x else y) Q E := by
  by_cases hc : c
  · rw [if_pos hc]
    exact hx hc
  · rw [if_neg hc]
    exact hy hc

theorem Spec.state (h : Spec P x (fun _ => I) (fun _ => I)) {r : Except ε α}
    (hs : P s) (hrun : x.run s = (r, s')) : I s' := by
  cases r with
  | error e => exact h.error s e s' hs hrun
  | ok a => exact h.ok s a s' hs hrun

theorem Spec.forM {f : ι → Fallible σ ε PUnit} (items : List ι)
    (hstep : ∀ i ∈ items, Spec I (f i) (fun _ => I) E) :
    Spec I (items.forM f) (fun _ => I) E := by
  induction items with
  | nil => exact Spec.pure fun _ hs => hs
  | cons i rest ih =>
    change Spec I (f i >>= fun _ => rest.forM f) (fun _ => I) E
    apply Spec.bind (hstep i List.mem_cons_self)
    intro _
    exact ih fun j hj => hstep j (List.mem_cons_of_mem i hj)

theorem Spec.forM_pending {f : ι → Fallible σ ε PUnit} {I : List ι → σ → Prop} (items : List ι)
    (hstep : ∀ i rest, (i :: rest).IsSuffix items →
      Spec (I (i :: rest)) (f i) (fun _ => I rest) E) :
    Spec (I items) (items.forM f) (fun _ => I []) E := by
  induction items with
  | nil => exact Spec.pure fun _ hs => hs
  | cons i rest ih =>
    change Spec (I (i :: rest)) (f i >>= fun _ => rest.forM f) (fun _ => I []) E
    apply Spec.bind (hstep i rest (List.suffix_refl _))
    intro _
    apply ih
    intro j later hsuffix
    exact hstep j later (hsuffix.trans (List.suffix_cons i rest))

theorem Spec.foldlM {f : α → ι → Fallible σ ε α} {I : α → σ → Prop} (items : List ι)
    (hstep : ∀ a, ∀ i ∈ items, Spec (I a) (f a i) I E) (a : α) :
    Spec (I a) (items.foldlM f a) I E := by
  induction items generalizing a with
  | nil => exact Spec.pure fun _ hs => hs
  | cons i rest ih =>
    rw [List.foldlM_cons]
    apply Spec.bind (hstep a i List.mem_cons_self)
    intro b
    exact ih (fun c j hj => hstep c j (List.mem_cons_of_mem i hj)) b

theorem Spec.foldlM_stops {f : α → ι → Fallible σ ε α} {items : List ι} {i : ι} (hi : i ∈ items)
    (hstep : ∀ a j, Spec I (f a j) (fun _ => I) (fun _ _ => True))
    (hstop : ∀ a, Spec I (f a i) (fun _ _ => False) (fun _ _ => True)) (a : α) :
    Spec I (items.foldlM f a) (fun _ _ => False) (fun _ _ => True) := by
  induction items generalizing a with
  | nil => exact absurd hi List.not_mem_nil
  | cons j rest ih =>
    rw [List.foldlM_cons]
    rcases List.mem_cons.mp hi with rfl | hrest
    · apply Spec.bind (hstop a)
      intro b
      exact ⟨fun _ _ _ h => h.elim, fun _ _ _ h => h.elim⟩
    · exact Spec.bind (hstep a j) fun b => ih hrest b

def ReadOnly (x : Fallible σ ε α) : Prop := ∀ s, (x.run s).2 = s

namespace ReadOnly

theorem pure (a : α) : ReadOnly (Pure.pure a : Fallible σ ε α) := fun _ => rfl

theorem fail (e : ε) : ReadOnly (Fallible.fail e : Fallible σ ε α) := fun _ => rfl

theorem of_run {f : σ → Except ε α} (h : ∀ s, x.run s = (f s, s)) : ReadOnly x :=
  fun s => by rw [h]

theorem bind (hx : ReadOnly x) (hf : ∀ a, ReadOnly (f a)) : ReadOnly (x >>= f) := by
  intro s
  have hstate := hx s
  rcases hrun : x.run s with ⟨r, s'⟩
  rw [hrun] at hstate
  cases r with
  | error e =>
    rw [run_bind_of_error hrun]
    exact hstate
  | ok a =>
    rw [run_bind_of_ok hrun, hf]
    exact hstate

theorem ite {c : Prop} [Decidable c] {y : Fallible σ ε α} (hx : ReadOnly x)
    (hy : ReadOnly y) : ReadOnly (if c then x else y) := by
  by_cases h : c
  · rwa [if_pos h]
  · rwa [if_neg h]

end ReadOnly

/-- A computation that leaves one aspect of the state alone, whatever its outcome. -/
def Keeps (g : σ → β) (x : Fallible σ ε α) : Prop := ∀ s, g (x.run s).2 = g s

namespace Keeps

variable {γ : Type} {g : σ → γ}

theorem pure (a : α) : Keeps g (Pure.pure a : Fallible σ ε α) := fun _ => rfl

theorem fail (e : ε) : Keeps g (Fallible.fail e : Fallible σ ε α) := fun _ => rfl

theorem gets (f : σ → α) : Keeps g (Fallible.gets f : Fallible σ ε α) := fun _ => rfl

theorem of_readOnly (h : ReadOnly x) : Keeps g x :=
  fun s => congrArg g (h s)

theorem bind (hx : Keeps g x) (hf : ∀ a, Keeps g (f a)) : Keeps g (x >>= f) := by
  intro s
  have hstate := hx s
  rcases hrun : x.run s with ⟨e | a, s'⟩
  · rw [hrun] at hstate
    rw [run_bind_of_error hrun]
    exact hstate
  · rw [hrun] at hstate
    rw [run_bind_of_ok hrun, hf]
    exact hstate

theorem ite {c : Prop} [Decidable c] {y : Fallible σ ε α} (hx : Keeps g x)
    (hy : Keeps g y) : Keeps g (if c then x else y) := by
  by_cases h : c
  · rwa [if_pos h]
  · rwa [if_neg h]

theorem attempt (hx : Keeps g x) : Keeps g (Fallible.attempt x) :=
  fun s => hx s

theorem ofOption (e : ε) (o : Option α) : Keeps g (Fallible.ofOption e o : Fallible σ ε α) := by
  cases o with
  | none => exact fail e
  | some a => exact pure a

theorem forM {f : ι → Fallible σ ε PUnit} (hf : ∀ i, Keeps g (f i))
    (items : List ι) : Keeps g (items.forM f) := by
  induction items with
  | nil => exact pure _
  | cons i rest ih => exact bind (hf i) fun _ => ih

theorem spec (hx : Keeps g x) (c : γ) :
    Spec (fun s => g s = c) x (fun _ s => g s = c) (fun _ s => g s = c) where
  ok s a s' hs hrun := by
    have hstate := hx s
    rw [hrun] at hstate
    exact hstate.trans hs
  error s e s' hs hrun := by
    have hstate := hx s
    rw [hrun] at hstate
    exact hstate.trans hs

theorem foldlM {f : α → ι → Fallible σ ε α} (hf : ∀ a i, Keeps g (f a i))
    (items : List ι) (a : α) : Keeps g (items.foldlM f a) := by
  induction items generalizing a with
  | nil => exact pure _
  | cons i rest ih =>
    rw [List.foldlM_cons]
    exact bind (hf a i) ih

end Keeps

/-- Whatever its outcome, the computation ends in a state with the property exactly when
it starts in one and the condition holds there. -/
def Demands (P : σ → Prop) (x : Fallible σ ε α) (C : σ → Prop) : Prop :=
  ∀ s, P (x.run s).2 ↔ P s ∧ C s

namespace Demands

theorem congr {C D : σ → Prop} (h : Demands P x C) (hiff : ∀ s, C s ↔ D s) : Demands P x D :=
  fun s => (h s).trans (and_congr_right fun _ => hiff s)

theorem of_neutral (h : ∀ s, P (x.run s).2 ↔ P s) : Demands P x (fun _ => True) :=
  fun s => (h s).trans (and_iff_left trivial).symm

theorem pure (a : α) : Demands P (Pure.pure a : Fallible σ ε α) (fun _ => True) :=
  of_neutral fun _ => Iff.rfl

theorem fail (e : ε) : Demands P (Fallible.fail e : Fallible σ ε α) (fun _ => True) :=
  of_neutral fun _ => Iff.rfl

theorem modify {f : σ → σ} (h : ∀ s, P (f s) ↔ P s) :
    Demands P (Fallible.modify f : Fallible σ ε Unit) (fun _ => True) :=
  of_neutral h

theorem bind {C : σ → Prop} (hx : Demands P x C) (hf : ∀ a, Demands P (f a) (fun _ => True)) :
    Demands P (x >>= f) C := by
  intro s
  rcases hrun : x.run s with ⟨e | a, s'⟩
  · rw [run_bind_of_error hrun, ← hx s, hrun]
  · rw [run_bind_of_ok hrun, hf a s', and_iff_left trivial, ← hx s, hrun]

theorem gets_bind {g : σ → α} {C : α → σ → Prop} (hf : ∀ a, Demands P (f a) (C a)) :
    Demands P (Fallible.gets g >>= f) (fun s => C (g s) s) :=
  fun s => hf (g s) s

end Demands

end Fallible

end ZiqaKernel
