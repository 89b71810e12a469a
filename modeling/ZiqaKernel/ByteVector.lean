/-
Resizable vectors: writing anywhere and cutting or padding to a length.  This is
what a file is meant to be.
-/
import Mathlib

namespace ZiqaKernel

namespace ByteVector

variable {α : Type} [Zero α]

/-- Cut or pad with zeros to length `n`. -/
def resize (v : List α) (n : Nat) : List α :=
  v.take n ++ List.replicate (n - v.length) 0

/-- Put `data` at position `pos`; a gap before it is filled with zeros. -/
def write (v : List α) (pos : Nat) (data : List α) : List α :=
  resize v pos ++ (data ++ v.drop (pos + data.length))

variable (v : List α)

@[simp]
theorem length_resize (n : Nat) : (resize v n).length = n := by
  rw [resize, List.length_append, List.length_take, List.length_replicate]
  omega

theorem length_write (pos : Nat) (data : List α) :
    (write v pos data).length = max (pos + data.length) v.length := by
  rw [write, List.length_append, List.length_append, length_resize, List.length_drop]
  omega

theorem getD_resize {v : List α} {n p : Nat} (h : p < n) : (resize v n).getD p 0 = v.getD p 0 := by
  simp only [resize, List.getD_eq_getElem?_getD]
  by_cases hp : p < v.length
  · rw [List.getElem?_append_left (by rw [List.length_take]; omega), List.getElem?_take_of_lt h]
  · rw [List.getElem?_append_right (by rw [List.length_take]; omega),
      List.getElem?_replicate, List.getElem?_eq_none (by omega)]
    split <;> rfl

theorem getD_write_of_lt {v data : List α} {pos p : Nat} (h : p < pos) :
    (write v pos data).getD p 0 = v.getD p 0 := by
  rw [write, List.getD_append _ _ _ _ (by rwa [length_resize]), getD_resize h]

theorem getD_write_inside {v data : List α} {pos k : Nat} (h : k < data.length) :
    (write v pos data).getD (pos + k) 0 = data.getD k 0 := by
  rw [write, List.getD_append_right _ _ _ _ (by rw [length_resize]; omega),
    length_resize, Nat.add_sub_cancel_left, List.getD_append _ _ _ _ h]

theorem getD_write_of_le {v data : List α} {pos p : Nat} (h : pos + data.length ≤ p) :
    (write v pos data).getD p 0 = v.getD p 0 := by
  rw [write, List.getD_append_right _ _ _ _ (by rw [length_resize]; omega),
    length_resize, List.getD_append_right _ _ _ _ (by omega)]
  simp only [List.getD_eq_getElem?_getD, List.getElem?_drop]
  congr 2
  omega

/-- What reading `len` elements from position `pos` gives. -/
def read (v : List α) (pos len : Nat) : List α := (v.drop pos).take len

omit [Zero α] in
theorem length_read (pos len : Nat) :
    (read v pos len).length = min len (v.length - pos) := by
  rw [read, List.length_take, List.length_drop]

theorem map_range_getD (pos len : Nat) :
    (List.range (min len (v.length - pos))).map (fun k => v.getD (pos + k) 0) = read v pos len := by
  apply List.ext_getElem
  · rw [List.length_map, List.length_range, length_read]
  · intro k hk _
    rw [List.length_map, List.length_range] at hk
    simp only [List.getElem_map, List.getElem_range, read, List.getElem_take,
      List.getElem_drop, List.getD_eq_getElem?_getD]
    rw [List.getElem?_eq_getElem (by omega), Option.getD_some]

end ByteVector

end ZiqaKernel
