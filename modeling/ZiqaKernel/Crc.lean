/-
The forms of the CRC-32 checksum (`zig_crc32` of `src/zig/kernel_ops.zig`): over the
table, bit by bit, and in parts.
-/
import ZiqaKernel.ZigKernelOps

namespace ZiqaKernel

/-- The loop body of `zig_crc32`. -/
def crcStep (crc : UInt32) (byte : UInt8) : UInt32 :=
  (crc >>> 8) ^^^ UInt32.ofNat (crc32Entry ((crc.toNat &&& 0xFF) ^^^ byte.toNat))

/-- `zig_crc32` -/
def zigCrc32 (data : List UInt8) (initCrc : UInt32) : UInt32 :=
  ~~~ data.foldl crcStep (~~~ initCrc)

/-- One bit of the reflected CRC-32 with the polynomial 0xEDB88320. -/
def crcRound (c : UInt32) : UInt32 :=
  if c &&& 1 = 0 then c >>> 1 else (c >>> 1) ^^^ 0xEDB88320

def bitwiseCrc32 (data : List UInt8) (initCrc : UInt32) : UInt32 :=
  ~~~ data.foldl (fun crc byte => Nat.repeat crcRound 8 (crc ^^^ byte.toUInt32)) (~~~ initCrc)

theorem crc32Entry_eq : ∀ i < 256, crc32Entry i = crc32Byte i := by
  decide +kernel

theorem crc32Bit_toNat (c : UInt32) : crc32Bit c.toNat = (crcRound c).toNat := by
  have low : c.toNat &&& 1 = 0 ↔ c &&& 1 = 0 := by
    rw [← UInt32.toNat_inj]
    simp
  simp only [crc32Bit, crcRound, ne_eq, low]
  split_ifs <;> simp_all

theorem crc32Byte_toNat (c : UInt32) :
    crc32Byte c.toNat = (Nat.repeat crcRound 8 c).toNat := by
  simp only [crc32Byte, Nat.repeat, crc32Bit_toNat]

theorem low_bit (c : UInt32) : c &&& 1 = 0 ∨ c &&& 1 = 1 := by
  have : c.toNat &&& 1 = 0 ∨ c.toNat &&& 1 = 1 := by
    rw [Nat.and_one_is_mod]
    omega
  simpa [← UInt32.toNat_inj] using this

theorem crcRound_xor (a b : UInt32) : crcRound (a ^^^ b) = crcRound a ^^^ crcRound b := by
  have both : (a ^^^ b) &&& 1 = (a &&& 1) ^^^ (b &&& 1) := by
    apply UInt32.toBitVec_inj.mp
    ext i
    simp [Bool.and_xor_distrib_right]
  have shift : (a ^^^ b) >>> 1 = (a >>> 1) ^^^ (b >>> 1) := by
    simp [← UInt32.toBitVec_inj, BitVec.ushiftRight_xor_distrib]
  rcases low_bit a with ha | ha <;> rcases low_bit b with hb | hb
  · simp [crcRound, both, shift, ha, hb]
  · simp [crcRound, both, shift, ha, hb, UInt32.xor_assoc]
  · simp [crcRound, both, shift, ha, hb]
    ac_rfl
  · -- the polynomial is taken twice and cancels
    have twice (p : UInt32) :
        (a >>> 1 ^^^ p) ^^^ (b >>> 1 ^^^ p) = (a >>> 1 ^^^ b >>> 1) ^^^ (p ^^^ p) := by
      ac_rfl
    simp [crcRound, both, shift, ha, hb, twice]

theorem rounds_xor (n : Nat) (a b : UInt32) :
    Nat.repeat crcRound n (a ^^^ b) = Nat.repeat crcRound n a ^^^ Nat.repeat crcRound n b := by
  induction n with
  | zero => rfl
  | succ n ih => simp only [Nat.repeat, ih, crcRound_xor]

theorem register_split (crc : UInt32) (byte : UInt8) :
    crc ^^^ byte.toUInt32 =
      ((crc >>> 8) <<< 8) ^^^ UInt32.ofNat ((crc.toNat &&& 0xFF) ^^^ byte.toNat) := by
  have mask : ∀ i, (hi : i < 32) → (255#32)[i] = decide (i < 8) := by decide
  apply UInt32.toBitVec_inj.mp
  ext i hi
  by_cases low : i < 8
  · simp [mask, low]
  · have back : 8 + (i - 8) = i := by omega
    simp [mask, low, back, BitVec.getLsbD_eq_getElem hi]

theorem rounds_mul (n : Nat) (c : UInt32) (x : Nat) (h : c.toNat = x * 2 ^ n) :
    (Nat.repeat crcRound n c).toNat = x := by
  induction n generalizing x with
  | zero => simpa [Nat.repeat] using h
  | succ n ih =>
    have twice := ih (2 * x) (by rw [h]; ring)
    rw [Nat.repeat, ← crc32Bit_toNat, twice, crc32Bit]
    simp [Nat.and_one_is_mod, Nat.shiftRight_eq_div_pow]

theorem rounds_high (crc : UInt32) : Nat.repeat crcRound 8 ((crc >>> 8) <<< 8) = crc >>> 8 := by
  apply UInt32.toNat_inj.mp
  apply rounds_mul
  have := crc.toNat_lt
  simp [Nat.shiftLeft_eq, Nat.shiftRight_eq_div_pow]
  omega

theorem crcStep_eq (crc : UInt32) (byte : UInt8) :
    crcStep crc byte = Nat.repeat crcRound 8 (crc ^^^ byte.toUInt32) := by
  have index : (crc.toNat &&& 0xFF) ^^^ byte.toNat < 2 ^ 8 :=
    Nat.xor_lt_two_pow (Nat.and_lt_two_pow _ (by decide)) byte.toNat_lt
  rw [register_split, rounds_xor, rounds_high, crcStep, crc32Entry_eq _ index]
  have small := UInt32.toNat_ofNat_of_lt' (index.trans (by decide : 2 ^ 8 < UInt32.size))
  rw [← UInt32.ofNat_toNat (x := Nat.repeat crcRound 8 _), ← crc32Byte_toNat, small]

theorem zigCrc32_forms :
    (∀ data initCrc, zigCrc32 data initCrc = bitwiseCrc32 data initCrc) ∧
      ∀ a b initCrc, zigCrc32 (a ++ b) initCrc = zigCrc32 b (zigCrc32 a initCrc) := by
  constructor
  · intro data initCrc
    have steps : crcStep = fun crc byte => Nat.repeat crcRound 8 (crc ^^^ byte.toUInt32) :=
      funext₂ crcStep_eq
    rw [zigCrc32, steps, bitwiseCrc32]
  · intro a b initCrc
    simp [zigCrc32, List.foldl_append]

end ZiqaKernel
