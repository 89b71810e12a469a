/-
The Internet checksum (`zig_inet_checksum` of `src/zig/kernel_ops.zig`).
-/
import Mathlib

namespace ZiqaKernel

/-- An addition of the 32-bit accumulator; there is no result when it overflows. -/
def addU32 (a b : Nat) : Option Nat := if a + b < 2 ^ 32 then some (a + b) else none

/-- The loop over the 16-bit words, with the last byte of an odd buffer. -/
def inetSum (sum : Nat) : List UInt8 → Option Nat
  | hi :: lo :: rest => do
    let sum ← addU32 sum (hi.toNat <<< 8 ||| lo.toNat)
    inetSum sum rest
  | [hi] => addU32 sum (hi.toNat <<< 8)
  | [] => some sum

def inetFold (sum : Nat) : Nat :=
  if sum >>> 16 ≠ 0 then inetFold ((sum &&& 0xFFFF) + (sum >>> 16)) else sum
termination_by sum
decreasing_by
  rw [Nat.and_two_pow_sub_one_eq_mod sum 16, Nat.shiftRight_eq_div_pow]
  rw [Nat.shiftRight_eq_div_pow] at *
  omega

/-- `zig_inet_checksum`; no result when the accumulator overflows. -/
def zigInetChecksum (data : List UInt8) : Option UInt16 := do
  let sum ← inetSum 0 data
  pure (~~~ UInt32.ofNat (inetFold sum) &&& 0xFFFF).toUInt16

/-- Store a 16-bit value in big-endian order at offset `k`. -/
def storeBe16 (data : List UInt8) (k : Nat) (v : UInt16) : List UInt8 :=
  (data.set k (v >>> 8).toUInt8).set (k + 1) v.toUInt8

def wordSum : List UInt8 → Nat
  | hi :: lo :: rest => 256 * hi.toNat + lo.toNat + wordSum rest
  | [hi] => 256 * hi.toNat
  | [] => 0

theorem word_eq (hi lo : UInt8) : hi.toNat <<< 8 ||| lo.toNat = 256 * hi.toNat + lo.toNat := by
  rw [← Nat.shiftLeft_add_eq_or_of_lt lo.toNat_lt, Nat.shiftLeft_eq, Nat.mul_comm]

theorem wordSum_le (data : List UInt8) : wordSum data ≤ 65535 * ((data.length + 1) / 2) := by
  fun_induction wordSum data with
  | case1 hi lo rest ih =>
    have := hi.toNat_lt
    have := lo.toNat_lt
    simp only [List.length_cons]
    omega
  | case2 hi =>
    have := hi.toNat_lt
    simp only [List.length_singleton]
    omega
  | case3 => simp

theorem inetSum_eq (data : List UInt8) (sum : Nat) (h : sum + wordSum data < 2 ^ 32) :
    inetSum sum data = some (sum + wordSum data) := by
  fun_induction wordSum data generalizing sum with
  | case1 hi lo rest ih =>
    rw [inetSum, word_eq, addU32, if_pos (by omega), Option.bind_eq_bind, Option.bind_some,
      ih _ (by omega), Nat.add_assoc]
  | case2 hi =>
    rw [inetSum, addU32, Nat.shiftLeft_eq, Nat.mul_comm, if_pos h]
  | case3 => rfl

theorem inetFold_spec (sum : Nat) : inetFold sum < 65536 ∧
    inetFold sum % 65535 = sum % 65535 ∧ (inetFold sum = 0 ↔ sum = 0) := by
  fun_induction inetFold sum with
  | case1 sum h ih =>
    rw [Nat.and_two_pow_sub_one_eq_mod sum 16, Nat.shiftRight_eq_div_pow] at ih
    rw [Nat.and_two_pow_sub_one_eq_mod sum 16, Nat.shiftRight_eq_div_pow]
    omega
  | case2 sum h =>
    rw [Nat.shiftRight_eq_div_pow] at h
    omega

theorem wordSum_storeBe16 (v : UInt16) (data : List UInt8) (k : Nat) (hk : k % 2 = 0)
    (hhigh : data[k]? = some 0) (hlow : data[k + 1]? = some 0) :
    wordSum (storeBe16 data k v) = wordSum data + v.toNat := by
  fun_induction wordSum data generalizing k with
  | case1 hi lo rest ih =>
    match k with
    | 0 =>
      obtain rfl : hi = 0 := by simpa using hhigh
      obtain rfl : lo = 0 := by simpa using hlow
      have hv := v.toNat_lt
      have hbytes : 256 * (v >>> 8).toUInt8.toNat + v.toUInt8.toNat = v.toNat := by
        simp [Nat.shiftRight_eq_div_pow]
        omega
      simp only [storeBe16, List.set_cons_zero, List.set_cons_succ, wordSum]
      simp only [UInt8.toNat_zero]
      omega
    | 1 => omega
    | k + 2 =>
      have hrest := ih k (by omega) (by simpa using hhigh) (by simpa using hlow)
      rw [storeBe16] at hrest
      simp only [storeBe16, List.set_cons_succ, wordSum, hrest]
      omega
  | case2 hi =>
    rw [List.getElem?_eq_none (by simp)] at hlow
    cases hlow
  | case3 => cases hhigh

theorem zigInetChecksum_eq (data : List UInt8) (h : data.length ≤ 65535) :
    zigInetChecksum data = some (UInt16.ofNat (65535 - inetFold (wordSum data))) := by
  have hsum := wordSum_le data
  have hfold := (inetFold_spec (wordSum data)).1
  rw [zigInetChecksum, inetSum_eq data 0 (by omega), Nat.zero_add]
  simp only [Option.bind_eq_bind, Option.bind_some, Option.pure_def, Option.some.injEq]
  have hmask (x : UInt32) : (x &&& 0xFFFF).toNat = x.toNat % 65536 := by
    rw [UInt32.toNat_and]
    exact Nat.and_two_pow_sub_one_eq_mod x.toNat 16
  apply UInt16.toNat_inj.mp
  rw [UInt32.toNat_toUInt16, hmask, UInt32.toNat_not, UInt32.toNat_ofNat', UInt16.toNat_ofNat']
  simp only [UInt32.size]
  omega

/-- A buffer with its checksum in it verifies, and no addition overflows. -/
theorem inetChecksum_verifies (buf : List UInt8) (k : Nat) (hlen : buf.length ≤ 65535)
    (hk : k % 2 = 0) (hhigh : buf[k]? = some 0) (hlow : buf[k + 1]? = some 0) :
    ∃ c, zigInetChecksum buf = some c ∧ zigInetChecksum (storeBe16 buf k c) = some 0 := by
  refine ⟨_, zigInetChecksum_eq buf hlen, ?_⟩
  have hfold := inetFold_spec (wordSum buf)
  have hfull := inetFold_spec (wordSum buf + (65535 - inetFold (wordSum buf)))
  rw [zigInetChecksum_eq _ (by simpa [storeBe16] using hlen), wordSum_storeBe16 _ _ _ hk hhigh hlow,
    UInt16.toNat_ofNat', Nat.mod_eq_of_lt (by omega)]
  -- the sum is a multiple of 65535 and not zero, so that it folds to the other zero
  have hones : inetFold (wordSum buf + (65535 - inetFold (wordSum buf))) = 65535 := by omega
  rw [hones]
  rfl

theorem inetChecksum_verifies_header : ∃ c, zigInetChecksum [0x45, 0, 0, 0, 0xFF, 0xFF] = some c ∧
    zigInetChecksum (storeBe16 [0x45, 0, 0, 0, 0xFF, 0xFF] 2 c) = some 0 :=
  inetChecksum_verifies [0x45, 0, 0, 0, 0xFF, 0xFF] 2 (by decide) rfl rfl rfl

end ZiqaKernel
