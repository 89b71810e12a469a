/-
Graphs whose edges carry keys, seen from a root: walks, trees, and what becomes
of the walks when one edge is redirected.
-/
import Mathlib

namespace ZiqaKernel

variable {ν κ : Type}

def follow (g : ν → κ → Option ν) : ν → List κ → Option ν
  | n, [] => some n
  | n, k :: ks => (g n k).bind fun m => follow g m ks

section

variable {g : ν → κ → Option ν} {n m : ν} {k : κ} {p q : List κ}

@[simp]
theorem follow_nil (g : ν → κ → Option ν) (n : ν) : follow g n [] = some n := rfl

theorem follow_cons : follow g n (k :: p) = (g n k).bind fun m => follow g m p := rfl

theorem follow_append : follow g n (p ++ q) = (follow g n p).bind fun m => follow g m q := by
  induction p generalizing n with
  | nil => rfl
  | cons k p ih =>
    rw [List.cons_append, follow_cons, follow_cons, Option.bind_assoc]
    congr 1
    funext m
    exact ih

theorem follow_concat : follow g n (p ++ [k]) = (follow g n p).bind fun m => g m k := by
  rw [follow_append]
  congr 1
  funext m
  rw [follow_cons]
  cases g m k <;> rfl

theorem follow_isSome_of_append (h : (follow g n (p ++ q)).isSome) : (follow g n p).isSome := by
  rw [follow_append] at h
  cases hp : follow g n p with
  | none =>
    rw [hp] at h
    cases h
  | some m => rfl

end

/-- The nodes that can be reached from the root form a finite tree: each is reached in
one way, and the ways are bounded. -/
structure IsTree (g : ν → κ → Option ν) (root : ν) : Prop where
  unique : ∀ p q n, follow g root p = some n → follow g root q = some n → p = q
  bounded : ∃ depth, ∀ p, depth < p.length → follow g root p = none

section

variable [DecidableEq ν] [DecidableEq κ]

/-- The graph in which the edge of `n` with key `k` leads to `t`. -/
def redirect (g : ν → κ → Option ν) (n : ν) (k : κ) (t : Option ν) : ν → κ → Option ν :=
  fun m j => if m = n ∧ j = k then t else g m j

variable {g : ν → κ → Option ν} {root n m x : ν} {k : κ} {t : Option ν} {p q s : List κ}

theorem redirect_self (g : ν → κ → Option ν) (n : ν) (k : κ) (t : Option ν) :
    redirect g n k t n k = t :=
  if_pos ⟨rfl, rfl⟩

theorem redirect_eq_self (h : g n k = t) : redirect g n k t = g := by
  funext m j
  by_cases hmj : m = n ∧ j = k
  · obtain ⟨rfl, rfl⟩ := hmj
    rw [redirect_self, h]
  · exact if_neg hmj

theorem follow_redirect (h : ∀ s r, q = s ++ k :: r → follow g m s ≠ some n) :
    follow (redirect g n k t) m q = follow g m q := by
  induction q generalizing m with
  | nil => rfl
  | cons j q ih =>
    have hedge : redirect g n k t m j = g m j := by
      refine if_neg ?_
      rintro ⟨rfl, rfl⟩
      exact h [] q rfl rfl
    rw [follow_cons, follow_cons, hedge]
    cases hm : g m j with
    | none => rfl
    | some m' =>
      apply ih
      intro s r hq hs
      refine h (j :: s) r (by rw [hq, List.cons_append]) ?_
      rw [follow_cons, hm]
      exact hs

theorem follow_redirect_of_unreached (h : ∀ s, follow g m s ≠ some n) (q : List κ) :
    follow (redirect g n k t) m q = follow g m q :=
  follow_redirect fun s _ _ => h s

section

variable (hn : ∀ p, follow g root p = some n → p = s)

include hn

theorem follow_redirect_outside (hq : ¬ s ++ [k] <+: q) :
    follow (redirect g n k t) root q = follow g root q := by
  apply follow_redirect
  intro p r hsplit hp
  apply hq
  rw [hsplit, hn p hp]
  exact ⟨r, by simp⟩

theorem follow_redirect_inside (hs : follow g root s = some n) (r : List κ) :
    follow (redirect g n k t) root (s ++ [k] ++ r) =
      t.bind fun m => follow (redirect g n k t) m r := by
  have hstay : follow (redirect g n k t) root s = some n := by
    rw [follow_redirect_outside hn, hs]
    intro hlen
    have := hlen.length_le
    rw [List.length_append, List.length_singleton] at this
    omega
  rw [follow_append, follow_concat, hstay, Option.bind_some, redirect_self]

/-- Once an edge is cut, nothing behind it is reached. -/
theorem follow_redirect_none (hs : follow g root s = some n) (q : List κ) :
    follow (redirect g n k none) root q =
      if s ++ [k] <+: q then none else follow g root q := by
  split
  · next hin =>
    obtain ⟨r, rfl⟩ := hin
    exact follow_redirect_inside hn hs r
  · next hout => exact follow_redirect_outside hn hout

end

end

/-- The walks after what hung at `a` has been moved to `b`. -/
def MovedWalks (g g' : ν → κ → Option ν) (root : ν) (a b : List κ) : Prop :=
  (∀ q, follow g' root (b ++ q) = follow g root (a ++ q)) ∧
  (∀ q, ¬ b <+: q → a <+: q → follow g' root q = none) ∧
  ∀ q, ¬ b <+: q → ¬ a <+: q → follow g' root q = follow g root q

section

variable {g g' : ν → κ → Option ν} {root : ν} {a b : List κ}

theorem MovedWalks.origin (h : MovedWalks g g' root a b) {p : List κ} {n : ν}
    (hp : follow g' root p = some n) :
    (∃ q, p = b ++ q ∧ follow g root (a ++ q) = some n) ∨
      ¬ b <+: p ∧ ¬ a <+: p ∧ follow g root p = some n := by
  by_cases hb : b <+: p
  · obtain ⟨q, rfl⟩ := hb
    rw [h.1] at hp
    exact Or.inl ⟨q, rfl, hp⟩
  · by_cases ha : a <+: p
    · rw [h.2.1 p hb ha] at hp
      cases hp
    · rw [h.2.2 p hb ha] at hp
      exact Or.inr ⟨hb, ha, hp⟩

theorem MovedWalks.isTree (h : MovedWalks g g' root a b) (ht : IsTree g root) : IsTree g' root where
  unique p q n hp hq := by
    rcases h.origin hp with ⟨r, rfl, hr⟩ | ⟨-, ha, hr⟩
    · rcases h.origin hq with ⟨r', rfl, hr'⟩ | ⟨-, ha', hr'⟩
      · have heq := ht.unique _ _ _ hr hr'
        rw [List.append_cancel_left heq]
      · exact absurd ⟨r, ht.unique _ _ _ hr hr'⟩ ha'
    · rcases h.origin hq with ⟨r', rfl, hr'⟩ | ⟨-, -, hr'⟩
      · exact absurd ⟨r', ht.unique _ _ _ hr' hr⟩ ha
      · exact ht.unique _ _ _ hr hr'
  bounded := by
    obtain ⟨depth, hdepth⟩ := ht.bounded
    refine ⟨depth + b.length, fun p hp => ?_⟩
    rw [Option.eq_none_iff_forall_ne_some]
    intro n hn
    rcases h.origin hn with ⟨r, rfl, hr⟩ | ⟨-, -, hr⟩
    · rw [List.length_append] at hp
      rw [hdepth (a ++ r) (by rw [List.length_append]; omega)] at hr
      cases hr
    · rw [hdepth p (by omega)] at hr
      cases hr

end

end ZiqaKernel
