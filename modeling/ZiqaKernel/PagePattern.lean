/-
The pattern by which a page is classified before it is compressed
(`detect_pattern` of `memory/compression/classifier.rs`).  Numbers of type `f64`
are `Float`, and `libm::log2` is a parameter.
-/
import Mathlib

namespace ZiqaKernel

inductive PagePattern where
  | allZeros
  | shortPattern (period : Nat)
  | textOrCode
  | random
  | mixed

/-- `AdaptiveCompressor::shannon_entropy`. -/
def shannonEntropy (log2 : Float → Float) (data : List UInt8) : Float :=
  if data.isEmpty then 0
  else (List.range 256).foldl (fun entropy byte =>
    let count := data.count (UInt8.ofNat byte)
    if count = 0 then entropy
    else
      let p := count.toFloat / data.length.toFloat
      entropy - p * log2 p) 0

/-- `slice::chunks`: pieces of length `n`, the last of which may be shorter. -/
def chunks (n : Nat) (data : List UInt8) : List (List UInt8) :=
  if data = [] ∨ n = 0 then [] else data.take n :: chunks n (data.drop n)
termination_by data.length
decreasing_by
  simp only [List.length_drop]
  have := List.length_pos_iff.mpr (by tauto : data ≠ [])
  omega

/-- The loop over the chunks: what `matches` is after it. -/
def chunksMatch (period : Nat) (pattern : List UInt8) : List (List UInt8) → Bool
  | [] => true
  | chunk :: rest =>
    if chunk.length < period then
      (chunk.zip (pattern.take chunk.length)).all fun p => p.1 == p.2
    else if chunk ≠ pattern then false
    else chunksMatch period pattern rest

def findPeriod (data : List UInt8) : List Nat → Option Nat
  | [] => none
  | period :: rest =>
    if period > data.length then none
    else if chunksMatch period (data.take period) (chunks period data) then some period
    else findPeriod data rest

/-- `u8::is_ascii_graphic`, `u8::is_ascii_whitespace` or zero. -/
def isAsciiOrCode (b : UInt8) : Bool :=
  (0x21 ≤ b && b ≤ 0x7E) || [0x20, 0x09, 0x0A, 0x0C, 0x0D].contains b || b == 0

/-- `detect_pattern` -/
def detectPattern (log2 : Float → Float) (data : List UInt8) : PagePattern :=
  if data.isEmpty then .allZeros
  else if data.all (· == 0) then .allZeros
  else match findPeriod data (List.range' 1 16) with
    | some period => .shortPattern period
    | none =>
      let longestZeroRun := ((data.splitOnP (· != 0)).map List.length).max?.getD 0
      if longestZeroRun ≥ 64 then .mixed
      else if (data.countP isAsciiOrCode).toFloat / data.length.toFloat > 0.85 then .textOrCode
      else if shannonEntropy log2 data > 7.5 then .random
      else .mixed

def HasPeriod (data : List UInt8) (p : Nat) : Prop :=
  ∀ i < data.length, data[i]? = data[i % p]?

theorem zip_all_iff (chunk pattern : List UInt8) (h : chunk.length ≤ pattern.length) :
    (chunk.zip (pattern.take chunk.length)).all (fun p => p.1 == p.2) ↔
      ∀ i < chunk.length, chunk[i]? = pattern[i]? := by
  induction chunk generalizing pattern with
  | nil => simp
  | cons x chunk ih =>
    cases pattern with
    | nil => simp at h
    | cons y pattern =>
      have hrest := ih pattern (by simpa using h)
      simp only [List.length_cons, List.take_succ_cons, List.zip_cons_cons, List.all_cons,
        Bool.and_eq_true, beq_iff_eq, hrest, Nat.forall_lt_succ_left]
      simp

theorem chunksMatch_iff {period : Nat} {pattern : List UInt8} (hpos : 0 < period)
    (hlength : pattern.length = period) (data : List UInt8) :
    chunksMatch period pattern (chunks period data) ↔
      ∀ i < data.length, data[i]? = pattern[i % period]? := by
  fun_induction chunks period data with
  | case1 data h =>
    obtain rfl : data = [] := by
      rcases h with h | h
      · exact h
      · omega
    simp [chunksMatch]
  | case2 data h ih =>
    rw [chunksMatch]
    by_cases hshort : data.length < period
    · -- the last chunk ends the loop
      have htake : data.take period = data := List.take_of_length_le hshort.le
      rw [htake, if_pos hshort, zip_all_iff data pattern (by omega)]
      apply forall₂_congr
      intro i hi
      rw [Nat.mod_eq_of_lt (by omega)]
    · rw [if_neg (by simpa using hshort)]
      -- a whole chunk is the pattern, and the rest is shifted by one period
      have hsplit : (∀ i < data.length, data[i]? = pattern[i % period]?) ↔
          data.take period = pattern ∧
            ∀ i < (data.drop period).length, (data.drop period)[i]? = pattern[i % period]? := by
        constructor
        · intro hall
          constructor
          · apply List.ext_getElem?
            intro i
            by_cases hi : i < period
            · rw [List.getElem?_take_of_lt hi, hall i (by omega), Nat.mod_eq_of_lt hi]
            · rw [List.getElem?_take_eq_none (by omega), List.getElem?_eq_none (by omega)]
          · intro i hi
            rw [List.getElem?_drop, hall _ (by simp at hi; omega), Nat.add_mod_left]
        · rintro ⟨hfirst, hrest⟩ i hi
          by_cases hlow : i < period
          · rw [Nat.mod_eq_of_lt hlow, ← hfirst, List.getElem?_take_of_lt hlow]
          · have hback : period + (i - period) = i := by omega
            have hlater := hrest (i - period) (by simp; omega)
            rwa [List.getElem?_drop, hback, ← Nat.mod_eq_sub_mod (by omega)] at hlater
      rw [hsplit, ← ih]
      by_cases hfirst : data.take period = pattern <;> simp [hfirst]

theorem period_iff {data : List UInt8} {p : Nat} (hpos : 0 < p) (h : p ≤ data.length) :
    chunksMatch p (data.take p) (chunks p data) ↔ HasPeriod data p := by
  rw [chunksMatch_iff hpos (by simpa using h)]
  apply forall₂_congr
  intro i hi
  rw [List.getElem?_take_of_lt (Nat.mod_lt i hpos)]

theorem findPeriod_eq_some_iff (data : List UInt8) (n start p : Nat) (hstart : 0 < start) :
    findPeriod data (List.range' start n) = some p ↔
      IsLeast {p | start ≤ p ∧ p < start + n ∧ p ≤ data.length ∧ HasPeriod data p} p := by
  induction n generalizing start with
  | zero =>
    simp only [List.range'_zero, findPeriod, reduceCtorEq, false_iff]
    rintro ⟨⟨hle, hlt, -⟩, -⟩
    omega
  | succ n ih =>
    rw [List.range'_succ, findPeriod]
    split
    · next hlong =>
      simp only [reduceCtorEq, false_iff]
      rintro ⟨⟨hle, -, hfits, -⟩, -⟩
      omega
    · next hlong =>
      have hfits : start ≤ data.length := by omega
      split
      · next hmatch =>
        have hperiod := (period_iff hstart hfits).mp hmatch
        have hleast : IsLeast
            {p | start ≤ p ∧ p < start + (n + 1) ∧ p ≤ data.length ∧ HasPeriod data p} start :=
          ⟨⟨le_rfl, by omega, hfits, hperiod⟩, fun p hp => hp.1⟩
        constructor
        · intro h
          rwa [← Option.some.inj h]
        · intro h
          rw [hleast.unique h]
      · next hmatch =>
        have hnot : ¬ HasPeriod data start := mt (period_iff hstart hfits).mpr hmatch
        -- the period at the start does not fit, so that the two sets are the same
        have hsame : {p | start ≤ p ∧ p < start + (n + 1) ∧ p ≤ data.length ∧ HasPeriod data p} =
            {p | start + 1 ≤ p ∧ p < start + 1 + n ∧ p ≤ data.length ∧ HasPeriod data p} := by
          ext p
          simp only [Set.mem_ofPred_eq]
          constructor
          · rintro ⟨hle, hlt, hlen, hp⟩
            have hne : start ≠ p := fun h => hnot (h ▸ hp)
            exact ⟨by omega, by omega, hlen, hp⟩
          · rintro ⟨hle, hlt, hlen, hp⟩
            exact ⟨by omega, by omega, hlen, hp⟩
        rw [ih (start + 1) (by omega), hsame]

theorem detectPattern_shortPattern (log2 : Float → Float) (data : List UInt8) (p : Nat)
    (h : ∃ b ∈ data, b ≠ 0) : detectPattern log2 data = .shortPattern p ↔
      IsLeast {p | 1 ≤ p ∧ p ≤ min 16 data.length ∧
        ∀ i < data.length, data[i]? = data[i % p]?} p := by
  obtain ⟨b, hb, hne⟩ := h
  have hfull : data.isEmpty = false := by
    rw [List.isEmpty_eq_false_iff]
    exact List.ne_nil_of_mem hb
  have hzeros : data.all (· == 0) = false := by
    rw [List.all_eq_false]
    exact ⟨b, hb, by simpa using hne⟩
  have hset : {p | 1 ≤ p ∧ p ≤ min 16 data.length ∧
      ∀ i < data.length, data[i]? = data[i % p]?} =
      {p | 1 ≤ p ∧ p < 1 + 16 ∧ p ≤ data.length ∧ HasPeriod data p} := by
    ext p
    simp only [Set.mem_ofPred_eq, HasPeriod, le_min_iff, and_assoc]
    refine and_congr_right fun _ => and_congr ?_ Iff.rfl
    omega
  rw [hset, ← findPeriod_eq_some_iff data 16 1 p (by omega), detectPattern, hfull, hzeros]
  cases hfind : findPeriod data (List.range' 1 16) with
  | some q => simp
  | none =>
    simp only [Bool.false_eq_true, if_false, reduceCtorEq, iff_false]
    split_ifs <;> simp

theorem detectPattern_shortPattern_pair : (∃ b ∈ [1, 2, 1], b ≠ (0 : UInt8)) ∧
    (detectPattern Float.log2 [1, 2, 1] = .shortPattern 2 ↔
      IsLeast {p | 1 ≤ p ∧ p ≤ min 16 3 ∧
        ∀ i < 3, [1, 2, (1 : UInt8)][i]? = [1, 2, (1 : UInt8)][i % p]?} 2) :=
  ⟨by decide, detectPattern_shortPattern Float.log2 [1, 2, 1] 2 (by decide)⟩

end ZiqaKernel
