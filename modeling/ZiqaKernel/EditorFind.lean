/-
The search of the text editor (`search_forward` and `find_next` of `src/edit.rs`).
-/
import Mathlib

namespace ZiqaKernel

/-- `search_forward` -/
def searchForward (buf query : List UInt8) (start : Nat) : Option Nat :=
  if query = [] ∨ buf.length < query.length then none
  else (List.range' start (buf.length - query.length + 1 - start)).find?
    fun i => (buf.drop i).take query.length = query

/-- The part of `Editor` that the search reads and writes. -/
structure EditorFind where
  buf : List UInt8
  cursor : Nat
  findQuery : List UInt8
  findMatch : Option Nat

namespace EditorFind

/-- `find_next` -/
def findNext (ed : EditorFind) : EditorFind :=
  if ed.findQuery = [] then ed
  else
    let start := (ed.findMatch.map (· + 1)).getD ed.cursor
    let found := (searchForward ed.buf ed.findQuery start).or
      (searchForward ed.buf ed.findQuery 0)
    { ed with findMatch := found, cursor := found.getD ed.cursor }

/-- The positions at which the query stands in the buffer, in increasing order. -/
def occurrences (buf query : List UInt8) : List Nat :=
  (List.range (buf.length + 1)).filter fun i => query <+: buf.drop i

theorem searchForward_eq (buf : List UInt8) {query : List UInt8} (h : query ≠ []) (start : Nat) :
    searchForward buf query start = (occurrences buf query).find? (start ≤ ·) := by
  have fits {i : Nat} (hi : query <+: buf.drop i) :
      0 < query.length ∧ query.length + i ≤ buf.length := by
    have := List.length_pos_iff.mpr h
    have := hi.length_le
    rw [List.length_drop] at this
    omega
  have same (i : Nat) : (buf.drop i).take query.length = query ↔ query <+: buf.drop i := by
    rw [List.prefix_iff_eq_take, eq_comm]
  ext i
  simp only [searchForward, h, false_or, same, occurrences, List.find?_filter]
  split_ifs with short
  · simp only [List.find?_range_eq_some, List.mem_range]
    grind
  · simp only [List.find?_range_eq_some, List.find?_range'_eq_some, List.mem_range,
      List.mem_range'_1]
    grind

theorem occurrences_sorted (buf query : List UInt8) :
    (occurrences buf query).Pairwise (· < ·) :=
  List.pairwise_lt_range.filter _

theorem find_or_first {l : List Nat} (h : l ≠ []) (start : Nat) :
    (l.find? (start ≤ ·)).or (l.find? (0 ≤ ·)) = l[l.findIdx (start ≤ ·) % l.length]? := by
  have first : l.findIdx (0 ≤ ·) = 0 := (List.findIdx_eq (List.length_pos_iff.mpr h)).mpr (by simp)
  simp only [List.find?_eq_getElem?_findIdx, first]
  rcases List.findIdx_le_length.lt_or_eq with hi | hi
  · rw [Nat.mod_eq_of_lt hi, List.getElem?_eq_getElem hi, Option.some_or]
  · rw [hi, Nat.mod_self, List.getElem?_length, Option.none_or]

theorem findIdx_behind {l : List Nat} (h : l.Pairwise (· < ·)) {i : Nat} (hi : i < l.length) :
    l.findIdx (l[i] + 1 ≤ ·) = i + 1 := by
  have order {j k : Nat} (hk : k < l.length) (hj : j < l.length) (hjk : j < k) : l[j] < l[k] :=
    List.pairwise_iff_getElem.mp h j k hj hk hjk
  have upto {j : Nat} (hj : j < l.length) (hji : j ≤ i) : l[j] < l[i] + 1 := by
    rcases hji.lt_or_eq with hji | rfl
    · exact (order hi hj hji).trans (Nat.lt_succ_self _)
    · exact Nat.lt_succ_self _
  rcases Nat.lt_or_ge (i + 1) l.length with hlast | hlast
  · refine (List.findIdx_eq hlast).mpr ⟨?_, ?_⟩
    · simpa using Nat.succ_le_of_lt (order hlast hi i.lt_succ_self)
    · intro j hj
      simpa using upto (hj.trans hlast) (Nat.le_of_lt_succ hj)
  · have last : i + 1 = l.length := Nat.le_antisymm hi hlast
    rw [last, List.findIdx_eq_length]
    intro x hx
    obtain ⟨j, hj, rfl⟩ := List.getElem_of_mem hx
    simpa using upto hj (by omega)

abbrev places (ed : EditorFind) : List Nat := occurrences ed.buf ed.findQuery

section

variable (ed : EditorFind) (hquery : ed.findQuery ≠ []) (hoccurs : ed.places ≠ [])
include hquery hoccurs

/-- A call moves to the occurrence with the index that it looks for, modulo their number. -/
theorem findNext_eq {i : Nat}
    (hi : ed.places.findIdx ((ed.findMatch.map (· + 1)).getD ed.cursor ≤ ·) = i) :
    ∃ pos, ed.places[i % ed.places.length]? = some pos ∧
      ed.findNext = { ed with findMatch := some pos, cursor := pos } := by
  have inside := Nat.mod_lt i (List.length_pos_iff.mpr hoccurs)
  refine ⟨_, List.getElem?_eq_getElem inside, ?_⟩
  rw [findNext, if_neg hquery]
  simp only [searchForward_eq _ hquery, find_or_first hoccurs, hi, List.getElem?_eq_getElem inside]
  rfl

theorem findNext_call (hmatch : ed.findMatch = none) (k : Nat) :
    ∃ pos, ed.places[(ed.places.findIdx (ed.cursor ≤ ·) + k) % ed.places.length]? = some pos ∧
      findNext^[k + 1] ed = { ed with findMatch := some pos, cursor := pos } := by
  induction k with
  | zero => exact findNext_eq ed hquery hoccurs (by simp [hmatch])
  | succ k ih =>
    obtain ⟨pos, hpos, heq⟩ := ih
    obtain ⟨hlt, rfl⟩ := List.getElem?_eq_some_iff.mp hpos
    obtain ⟨next, hnext, hed⟩ := findNext_eq { ed with findMatch := some _, cursor := _ }
      hquery hoccurs (findIdx_behind (occurrences_sorted _ _) hlt)
    refine ⟨next, ?_, ?_⟩
    · rwa [Nat.mod_add_mod] at hnext
    · rw [Function.iterate_succ_apply', heq, hed]

/-- From no match, the calls go through the occurrences cyclically from the first at or behind
the cursor; as many calls in a row as there are occurrences visit each of them once. -/
theorem findNext_visits (hmatch : ed.findMatch = none) :
    (∀ k, ∃ pos, ed.places[(ed.places.findIdx (ed.cursor ≤ ·) + k) % ed.places.length]? =
        some pos ∧ findNext^[k + 1] ed = { ed with findMatch := some pos, cursor := pos }) ∧
      ∀ c, ((List.range ed.places.length).map
        fun k => (findNext^[c + k + 1] ed).cursor).Perm ed.places := by
  refine ⟨findNext_call ed hquery hoccurs hmatch, fun c => ?_⟩
  suffices window : (List.range ed.places.length).map
      (fun k => (findNext^[c + k + 1] ed).cursor) =
        ed.places.rotate (ed.places.findIdx (ed.cursor ≤ ·) + c) from
    window ▸ List.rotate_perm _ _
  apply List.ext_getElem (by simp)
  intro k hk hk'
  obtain ⟨pos, hpos, heq⟩ := findNext_call ed hquery hoccurs hmatch (c + k)
  rw [List.getElem_map, List.getElem_range, heq, ← Option.some_inj, ← hpos,
    ← List.getElem?_eq_getElem, List.getElem?_rotate (by simpa using hk), Nat.add_comm k,
    Nat.add_assoc]

end

/-- Two overlapping occurrences, from the cursor on the second. -/
theorem findNext_visits_overlapping :
    ((List.range 2).map fun k => (findNext^[0 + k + 1] ⟨[1, 1, 1], 1, [1, 1], none⟩).cursor).Perm
      [0, 1] :=
  (findNext_visits ⟨[1, 1, 1], 1, [1, 1], none⟩ (by decide) (by decide) rfl).2 0

end EditorFind

end ZiqaKernel
