/-
The rectangles of the compositor (`userspace/compositor.rs`) and the sets of pixels that
they stand for.
-/
import Mathlib

namespace ZiqaKernel

structure Rect where
  x : UInt32
  y : UInt32
  w : UInt32
  h : UInt32

namespace Rect

/-- `Rect::default` -/
def default : Rect := ⟨0, 0, 0, 0⟩

/-- `Rect::is_empty` -/
def isEmpty (r : Rect) : Bool := r.w == 0 || r.h == 0

/-- `Rect::union` -/
def union (r other : Rect) : Rect :=
  if r.isEmpty then other
  else if other.isEmpty then r
  else
    let x1 := min r.x other.x
    let y1 := min r.y other.y
    let x2 := max (r.x + r.w) (other.x + other.w)
    let y2 := max (r.y + r.h) (other.y + other.h)
    ⟨x1, y1, x2 - x1, y2 - y1⟩

/-- `Rect::intersect` -/
def intersect (r bounds : Rect) : Rect :=
  if r.isEmpty || bounds.isEmpty then default
  else
    let x1 := max r.x bounds.x
    let y1 := max r.y bounds.y
    let x2 := min (r.x + r.w) (bounds.x + bounds.w)
    let y2 := min (r.y + r.h) (bounds.y + bounds.h)
    if x2 ≤ x1 ∨ y2 ≤ y1 then default else ⟨x1, y1, x2 - x1, y2 - y1⟩

/-- `Rect::contains` -/
def contains (r other : Rect) : Bool :=
  if other.isEmpty then true
  else r.x ≤ other.x && r.y ≤ other.y && r.x + r.w ≥ other.x + other.w &&
    r.y + r.h ≥ other.y + other.h

/-- `Rect::difference` -/
def difference (r other : Rect) : Rect :=
  if (r.intersect other).isEmpty then r
  else if other.contains r then default
  else r

/-- The loop of `Compositor::composite` over the rectangles of the visible surfaces: what
is left of the damage.  It stops when that is empty. -/
def uncovered (damage : Rect) : List Rect → Rect
  | [] => damage
  | r :: rs =>
    let rest := damage.difference r
    if rest.isEmpty then rest else uncovered rest rs

structure Fits (r : Rect) : Prop where
  right : r.x.toNat + r.w.toNat < 2 ^ 32
  bottom : r.y.toNat + r.h.toNat < 2 ^ 32

def pixels (r : Rect) : Set (Nat × Nat) :=
  Set.Ico r.x.toNat (r.x.toNat + r.w.toNat) ×ˢ Set.Ico r.y.toNat (r.y.toNat + r.h.toNat)

variable {r a b : Rect}

theorem Fits.toNat_right (h : r.Fits) : (r.x + r.w).toNat = r.x.toNat + r.w.toNat := by
  rw [UInt32.toNat_add, Nat.mod_eq_of_lt h.right]

theorem Fits.toNat_bottom (h : r.Fits) : (r.y + r.h).toNat = r.y.toNat + r.h.toNat := by
  rw [UInt32.toNat_add, Nat.mod_eq_of_lt h.bottom]

theorem isEmpty_iff : r.isEmpty = true ↔ r.w.toNat = 0 ∨ r.h.toNat = 0 := by
  simp [isEmpty, ← UInt32.toNat_inj]

theorem pixels_eq_empty_iff : r.pixels = ∅ ↔ r.isEmpty = true := by
  rw [pixels, Set.prod_eq_empty_iff, Set.Ico_eq_empty_iff, Set.Ico_eq_empty_iff, isEmpty_iff]
  omega

theorem pixels_subset_iff (h : ¬ a.isEmpty) : a.pixels ⊆ b.pixels ↔
    (b.x.toNat ≤ a.x.toNat ∧ a.x.toNat + a.w.toNat ≤ b.x.toNat + b.w.toNat) ∧
      b.y.toNat ≤ a.y.toNat ∧ a.y.toNat + a.h.toNat ≤ b.y.toNat + b.h.toNat := by
  rw [isEmpty_iff] at h
  rw [pixels, pixels, Set.prod_subset_prod_iff, Set.Ico_subset_Ico_iff (by omega),
    Set.Ico_subset_Ico_iff (by omega), Set.Ico_eq_empty_iff, Set.Ico_eq_empty_iff]
  omega

theorem contains_iff_subset (ha : a.Fits) (hb : b.Fits) :
    a.contains b = true ↔ b.pixels ⊆ a.pixels := by
  by_cases hempty : b.isEmpty
  · simp [contains, hempty, pixels_eq_empty_iff.mpr hempty]
  · rw [pixels_subset_iff hempty, contains, if_neg hempty]
    simp only [Bool.and_eq_true, decide_eq_true_eq, ge_iff_le, UInt32.le_iff_toNat_le,
      ha.toNat_right, ha.toNat_bottom, hb.toNat_right, hb.toNat_bottom]
    omega

theorem edges_spec {x1 y1 x2 y2 : UInt32} (hx : x1 ≤ x2) (hy : y1 ≤ y2) :
    (⟨x1, y1, x2 - x1, y2 - y1⟩ : Rect).Fits ∧
      (⟨x1, y1, x2 - x1, y2 - y1⟩ : Rect).pixels =
        Set.Ico x1.toNat x2.toNat ×ˢ Set.Ico y1.toNat y2.toNat := by
  have hright : x1.toNat + (x2 - x1).toNat = x2.toNat := by
    rw [UInt32.toNat_sub_of_le _ _ hx]
    exact Nat.add_sub_cancel' (UInt32.le_iff_toNat_le.mp hx)
  have hbottom : y1.toNat + (y2 - y1).toNat = y2.toNat := by
    rw [UInt32.toNat_sub_of_le _ _ hy]
    exact Nat.add_sub_cancel' (UInt32.le_iff_toNat_le.mp hy)
  refine ⟨⟨hright ▸ x2.toNat_lt, hbottom ▸ y2.toNat_lt⟩, ?_⟩
  simp only [pixels, hright, hbottom]

theorem pixels_intersect (ha : a.Fits) (hb : b.Fits) :
    (a.intersect b).pixels = a.pixels ∩ b.pixels := by
  have hnone : default.pixels = ∅ := pixels_eq_empty_iff.mpr rfl
  rw [intersect]
  split
  · next hempty =>
    rw [Bool.or_eq_true] at hempty
    rcases hempty with h | h <;> simp [hnone, pixels_eq_empty_iff.mpr h]
  · have hmeet : a.pixels ∩ b.pixels =
        Set.Ico (max a.x b.x).toNat (min (a.x + a.w) (b.x + b.w)).toNat ×ˢ
          Set.Ico (max a.y b.y).toNat (min (a.y + a.h) (b.y + b.h)).toNat := by
      rw [pixels, pixels, Set.prod_inter_prod, Set.Ico_inter_Ico, Set.Ico_inter_Ico,
        UInt32.toNat_max, UInt32.toNat_max, UInt32.toNat_min, UInt32.toNat_min, ha.toNat_right,
        ha.toNat_bottom, hb.toNat_right, hb.toNat_bottom]
    rw [hmeet]
    dsimp only
    split
    · next h =>
      rw [hnone, eq_comm, Set.prod_eq_empty_iff, Set.Ico_eq_empty_iff, Set.Ico_eq_empty_iff]
      simpa only [UInt32.le_iff_toNat_le, not_lt] using h
    · next h =>
      rw [not_or, UInt32.not_le, UInt32.not_le] at h
      exact (edges_spec (UInt32.le_of_lt h.1) (UInt32.le_of_lt h.2)).2

theorem union_spec (ha : a.Fits) (hb : b.Fits) : (a.union b).Fits ∧
    a.pixels ∪ b.pixels ⊆ (a.union b).pixels ∧
      ∀ c : Rect, a.pixels ∪ b.pixels ⊆ c.pixels → (a.union b).pixels ⊆ c.pixels := by
  rw [union]
  split
  · next hempty => simp [pixels_eq_empty_iff.mpr hempty, hb]
  split
  · next hempty => simp [pixels_eq_empty_iff.mpr hempty, ha]
  · next hna hnb =>
    have hx : min a.x b.x ≤ max (a.x + a.w) (b.x + b.w) := by
      rw [UInt32.le_iff_toNat_le, UInt32.toNat_min, UInt32.toNat_max, ha.toNat_right,
        hb.toNat_right]
      omega
    have hy : min a.y b.y ≤ max (a.y + a.h) (b.y + b.h) := by
      rw [UInt32.le_iff_toNat_le, UInt32.toNat_min, UInt32.toNat_max, ha.toNat_bottom,
        hb.toNat_bottom]
      omega
    obtain ⟨hfits, hpixels⟩ := edges_spec hx hy
    refine ⟨hfits, ?_, ?_⟩
    all_goals
      dsimp only
      rw [hpixels, UInt32.toNat_min, UInt32.toNat_min, UInt32.toNat_max, UInt32.toNat_max,
        ha.toNat_right, ha.toNat_bottom, hb.toNat_right, hb.toNat_bottom]
    · apply Set.union_subset
      · exact Set.prod_mono (Set.Ico_subset_Ico (by omega) (by omega))
          (Set.Ico_subset_Ico (by omega) (by omega))
      · exact Set.prod_mono (Set.Ico_subset_Ico (by omega) (by omega))
          (Set.Ico_subset_Ico (by omega) (by omega))
    · intro c hc
      have hac := (pixels_subset_iff hna).mp (Set.union_subset_iff.mp hc).1
      have hbc := (pixels_subset_iff hnb).mp (Set.union_subset_iff.mp hc).2
      exact Set.prod_mono (Set.Ico_subset_Ico (by omega) (by omega))
        (Set.Ico_subset_Ico (by omega) (by omega))

theorem isEmpty_difference (ha : a.Fits) (hb : b.Fits) (h : ¬ a.isEmpty) :
    (a.difference b).isEmpty = true ↔ b.contains a = true := by
  have hmeet := pixels_intersect ha hb
  have hcontains := contains_iff_subset hb ha
  rw [difference]
  split
  · next hdisjoint =>
    -- a rectangle with pixels that is contained meets the other one
    rw [pixels_eq_empty_iff.mpr hdisjoint] at hmeet
    refine iff_of_false h fun hin => h ?_
    rw [← pixels_eq_empty_iff, hmeet, Set.inter_eq_left.mpr (hcontains.mp hin)]
  · split
    · next hin => simp [hin, default, isEmpty]
    · next hout => exact iff_of_false h hout

theorem difference_eq_self_of_not (h : ¬ (a.difference b).isEmpty) : a.difference b = a := by
  revert h
  rw [difference]
  split_ifs <;> simp [default, isEmpty]

theorem foldl_difference_of_isEmpty (h : a.isEmpty) (rs : List Rect) :
    (rs.foldl difference a).isEmpty = true := by
  induction rs generalizing a with
  | nil => exact h
  | cons b rs ih =>
    have hkept : a.difference b = a := by
      have hmeet : a.intersect b = default := by simp [intersect, h]
      rw [difference, hmeet]
      rfl
    rw [List.foldl_cons, hkept]
    exact ih h

theorem foldl_difference_isEmpty_iff (ha : a.Fits) (h : ¬ a.isEmpty) (rs : List Rect)
    (hrs : ∀ r ∈ rs, r.Fits) :
    (rs.foldl difference a).isEmpty = true ↔ ∃ r ∈ rs, r.contains a = true := by
  induction rs with
  | nil => simpa using h
  | cons b rs ih =>
    rw [List.forall_mem_cons] at hrs
    rw [List.foldl_cons, List.exists_mem_cons_iff, ← isEmpty_difference ha hrs.1 h]
    by_cases hempty : (a.difference b).isEmpty
    · exact iff_of_true (foldl_difference_of_isEmpty hempty rs) (.inl hempty)
    · rw [difference_eq_self_of_not hempty, ih hrs.2, or_iff_right h]

theorem isEmpty_uncovered (rs : List Rect) :
    (uncovered a rs).isEmpty = (rs.foldl difference a).isEmpty := by
  induction rs generalizing a with
  | nil => rfl
  | cons b rs ih =>
    rw [uncovered, List.foldl_cons]
    split
    · next h => rw [h, foldl_difference_of_isEmpty h rs]
    · exact ih

/-- The operations on rectangles are those on their pixels. -/
theorem rect_algebra (a b : Rect) (rs : List Rect) (ha : a.Fits) (hb : b.Fits)
    (hrs : ∀ r ∈ rs, r.Fits) :
    (a.intersect b).pixels = a.pixels ∩ b.pixels ∧
      ((a.union b).Fits ∧ a.pixels ∪ b.pixels ⊆ (a.union b).pixels ∧
        ∀ c : Rect, a.pixels ∪ b.pixels ⊆ c.pixels → (a.union b).pixels ⊆ c.pixels) ∧
      (a.contains b = true ↔ b.pixels ⊆ a.pixels) ∧
      (a.isEmpty = false → ((rs.foldl difference a).isEmpty = true ↔
        ∃ r ∈ rs, r.contains a = true) ∧
        (uncovered a rs).isEmpty = (rs.foldl difference a).isEmpty) := by
  refine ⟨pixels_intersect ha hb, union_spec ha hb, contains_iff_subset ha hb, fun h => ?_⟩
  exact ⟨foldl_difference_isEmpty_iff ha (by simp [h]) rs hrs, isEmpty_uncovered rs⟩

theorem rect_algebra_screen : (⟨0, 0, 4, 4⟩ : Rect).Fits ∧ (⟨1, 1, 2, 2⟩ : Rect).Fits ∧
    ((⟨0, 0, 4, 4⟩ : Rect).contains ⟨1, 1, 2, 2⟩ = true ↔
      (⟨1, 1, 2, 2⟩ : Rect).pixels ⊆ (⟨0, 0, 4, 4⟩ : Rect).pixels) ∧
    (([⟨1, 1, 2, 2⟩].foldl difference ⟨0, 0, 4, 4⟩).isEmpty = true ↔
      ∃ r ∈ [(⟨1, 1, 2, 2⟩ : Rect)], r.contains ⟨0, 0, 4, 4⟩ = true) :=
  have hscreen : (⟨0, 0, 4, 4⟩ : Rect).Fits := ⟨by decide, by decide⟩
  have hwindow : (⟨1, 1, 2, 2⟩ : Rect).Fits := ⟨by decide, by decide⟩
  have hall := rect_algebra ⟨0, 0, 4, 4⟩ ⟨1, 1, 2, 2⟩ [⟨1, 1, 2, 2⟩] hscreen hwindow
    (by simpa using hwindow)
  ⟨hscreen, hwindow, hall.2.2.1, (hall.2.2.2 rfl).1⟩

end Rect

end ZiqaKernel
