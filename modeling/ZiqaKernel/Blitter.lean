/-
The framebuffer and its scrolling (`zig_scroll_up` and `zig_clear` of
`src/zig/blitter.zig`).
-/
import Mathlib

namespace ZiqaKernel

open Function

/-- The framebuffer as 32-bit words: it is only accessed through pointers that `@alignCast`
takes to be aligned. -/
abbrev Pixels : Type := Nat → UInt32

/-- `pixelPtr`: the word at byte offset `y * pitch + x * 4`. -/
def pixelPtr (pitch x y : Nat) : Nat := (y * pitch + x * 4) / 4

/-- `zig_clear` -/
def zigClear (fb : Pixels) (size : Nat) (color : UInt32) : Pixels :=
  (List.range (size / 4)).foldl (fun fb i => update fb i color) fb

def copyRow (src dst w : Nat) (fb : Pixels) : Pixels :=
  (List.range w).foldl (fun fb i => update fb (dst + i) (fb (src + i))) fb

def fillRow (row w : Nat) (color : UInt32) (fb : Pixels) : Pixels :=
  (List.range w).foldl (fun fb i => update fb (row + i) color) fb

/-- `zig_scroll_up` -/
def zigScrollUp (fb : Pixels) (pitch w h lines : Nat) (fillColor : UInt32) : Pixels :=
  if lines ≥ h then zigClear fb (pitch * h) fillColor
  else
    let moved := (List.range (h - lines)).foldl (fun fb y =>
      copyRow (pixelPtr pitch 0 (lines + y)) (pixelPtr pitch 0 y) w fb) fb
    (List.range' (h - lines) lines).foldl (fun fb y =>
      fillRow (pixelPtr pitch 0 y) w fillColor fb) moved

theorem fillRow_apply (row w : Nat) (color : UInt32) (fb : Pixels) (a : Nat) :
    fillRow row w color fb a = if row ≤ a ∧ a < row + w then color else fb a := by
  induction w with
  | zero => simp [fillRow]
  | succ w ih =>
    rw [fillRow] at ih
    rw [fillRow, List.range_succ, List.foldl_append]
    by_cases hlast : a = row + w
    · simp [hlast]
    · have hsame : row ≤ a ∧ a < row + (w + 1) ↔ row ≤ a ∧ a < row + w := by omega
      simp only [List.foldl_cons, List.foldl_nil, update_of_ne hlast, ih, hsame]

theorem copyRow_apply {src dst : Nat} (h : dst ≤ src) (w : Nat) (fb : Pixels) (a : Nat) :
    copyRow src dst w fb a = if dst ≤ a ∧ a < dst + w then fb (src + (a - dst)) else fb a := by
  induction w generalizing a with
  | zero => simp [copyRow]
  | succ w ih =>
    rw [copyRow] at ih
    rw [copyRow, List.range_succ, List.foldl_append]
    simp only [List.foldl_cons, List.foldl_nil]
    by_cases hlast : a = dst + w
    · have hread : ¬ (dst ≤ src + w ∧ src + w < dst + w) := by omega
      rw [hlast, update_self, ih, if_neg hread, if_pos (by omega), Nat.add_sub_cancel_left]
    · have hsame : dst ≤ a ∧ a < dst + (w + 1) ↔ dst ≤ a ∧ a < dst + w := by omega
      simp only [update_of_ne hlast, ih, hsame]

theorem zigClear_apply (fb : Pixels) {size a : Nat} (color : UInt32) (h : a < size / 4) :
    zigClear fb size color a = color := by
  have hrow := fillRow_apply 0 (size / 4) color fb a
  simp only [fillRow, Nat.zero_add] at hrow
  rw [zigClear, hrow, if_pos ⟨Nat.zero_le a, h⟩]

section

variable {p w : Nat}

theorem pixelPtr_eq (p x y : Nat) : pixelPtr (4 * p) x y = y * p + x := by
  have hwords : y * (4 * p) + x * 4 = 4 * (y * p + x) := by ring
  rw [pixelPtr, hwords, Nat.mul_div_cancel_left _ (by omega)]

theorem mem_row_iff (hw : w ≤ p) {r k c : Nat} (hc : c < w) :
    k * p ≤ r * p + c ∧ r * p + c < k * p + w ↔ r = k := by
  constructor
  · rintro ⟨hle, hlt⟩
    rcases Nat.lt_trichotomy r k with h | h | h
    · have := Nat.mul_le_mul_right p (Nat.succ_le_of_lt h)
      rw [Nat.succ_mul] at this
      omega
    · exact h
    · have := Nat.mul_le_mul_right p (Nat.succ_le_of_lt h)
      rw [Nat.succ_mul] at this
      omega
  · rintro rfl
    omega

variable {r c : Nat} (hw : w ≤ p) (hc : c < w) (fb : Pixels)
include hw hc

/-- After `n` rows have been moved, they hold what was `lines` rows below, and the others
what they held. -/
theorem moveRows_apply (lines n : Nat) :
    (List.range n).foldl (fun fb y =>
      copyRow (pixelPtr (4 * p) 0 (lines + y)) (pixelPtr (4 * p) 0 y) w fb) fb (r * p + c) =
      if r < n then fb ((r + lines) * p + c) else fb (r * p + c) := by
  simp only [pixelPtr_eq, Nat.add_zero]
  induction n generalizing r with
  | zero => simp
  | succ n ih =>
    have hbehind : n * p ≤ (lines + n) * p := Nat.mul_le_mul_right p (Nat.le_add_left n lines)
    simp only [List.range_succ, List.foldl_append, List.foldl_cons, List.foldl_nil,
      copyRow_apply hbehind, mem_row_iff hw hc]
    by_cases hrow : r = n
    · subst hrow
      rw [if_pos rfl, Nat.add_sub_cancel_left, ih, if_neg (by omega), if_pos (by omega),
        Nat.add_comm lines r]
    · have hsame : r < n + 1 ↔ r < n := by omega
      simp only [hrow, if_false, ih, hsame]

theorem fillRows_apply (color : UInt32) (start n : Nat) :
    (List.range' start n).foldl (fun fb y => fillRow (pixelPtr (4 * p) 0 y) w color fb) fb
        (r * p + c) =
      if start ≤ r ∧ r < start + n then color else fb (r * p + c) := by
  simp only [pixelPtr_eq, Nat.add_zero]
  induction n with
  | zero => simp
  | succ n ih =>
    simp only [List.range'_1_concat, List.foldl_append, List.foldl_cons, List.foldl_nil,
      fillRow_apply, mem_row_iff hw hc, ih]
    by_cases hrow : r = start + n
    · rw [if_pos hrow, if_pos (by omega)]
    · have hsame : start ≤ r ∧ r < start + (n + 1) ↔ start ≤ r ∧ r < start + n := by omega
      simp only [hrow, if_false, hsame]

end

/-- Every visible pixel moves up by `lines` rows, and the last rows are filled. -/
theorem zigScrollUp_shift (fb : Pixels) (pitch w h lines r c : Nat) (fillColor : UInt32)
    (hpitch : pitch % 4 = 0) (hwidth : 4 * w ≤ pitch) (hlines : lines ≤ h) (hr : r < h)
    (hc : c < w) :
    (r + lines < h → zigScrollUp fb pitch w h lines fillColor (pixelPtr pitch c r) =
        fb (pixelPtr pitch c (r + lines))) ∧
      (h - lines ≤ r →
        zigScrollUp fb pitch w h lines fillColor (pixelPtr pitch c r) = fillColor) := by
  obtain ⟨p, rfl⟩ := Nat.dvd_of_mod_eq_zero hpitch
  have hw : w ≤ p := by omega
  rw [pixelPtr_eq, pixelPtr_eq, zigScrollUp]
  split
  · have hin : r * p + c < 4 * p * h / 4 := by
      have hrows := Nat.mul_le_mul_right p (Nat.succ_le_of_lt hr)
      rw [Nat.mul_assoc, Nat.mul_div_cancel_left _ (by omega), Nat.mul_comm p h]
      rw [Nat.succ_mul] at hrows
      omega
    rw [zigClear_apply fb fillColor hin]
    exact ⟨fun _ => by omega, fun _ => rfl⟩
  · dsimp only
    rw [fillRows_apply hw hc, moveRows_apply hw hc]
    constructor
    · intro h
      rw [if_neg (by omega), if_pos (by omega)]
    · intro h
      rw [if_pos (by omega)]

theorem zigScrollUp_shift_row : zigScrollUp (fun i => UInt32.ofNat i) 8 2 2 1 7 (pixelPtr 8 1 0) =
    UInt32.ofNat (pixelPtr 8 1 1) :=
  (zigScrollUp_shift (fun i => UInt32.ofNat i) 8 2 2 1 0 1 7 rfl (by decide) (by decide)
    (by decide) (by decide)).1 (by decide)

end ZiqaKernel
