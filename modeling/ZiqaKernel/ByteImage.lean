/-
Fixed-length byte images and the little-endian integers stored in them.  An
image is one number, so that closed images evaluate quickly; the bytes are its
digits in base 256.
-/
import Mathlib

namespace ZiqaKernel

/-- A run of exactly `n` bytes.  Bit `8 * i + j` is bit `j` of byte `i`. -/
structure Image (n : Nat) where
  bits : Nat
  bits_lt : bits < 2 ^ (8 * n)

/-- Byte `k` of a little-endian 32-bit integer. -/
def le32 (v : UInt32) (k : Nat) : UInt8 := UInt8.ofNat (v.toNat / 256 ^ k)

/-- Byte `k` of a little-endian 16-bit integer. -/
def le16 (v : UInt16) (k : Nat) : UInt8 := UInt8.ofNat (v.toNat / 256 ^ k)

/-- The little-endian 32-bit integer at byte offset `off`. -/
def u32At (f : Nat → UInt8) (off : Nat) : UInt32 :=
  UInt32.ofNat ((f off).toNat + 256 * (f (off + 1)).toNat +
    65536 * (f (off + 2)).toNat + 16777216 * (f (off + 3)).toNat)

/-- The little-endian 16-bit integer at byte offset `off`. -/
def u16At (f : Nat → UInt8) (off : Nat) : UInt16 :=
  UInt16.ofNat ((f off).toNat + 256 * (f (off + 1)).toNat)

theorem le32_toNat (v : UInt32) (k : Nat) : (le32 v k).toNat = v.toNat / 256 ^ k % 256 := by
  simp [le32]

theorem le16_toNat (v : UInt16) (k : Nat) : (le16 v k).toNat = v.toNat / 256 ^ k % 256 := by
  simp [le16]

theorem u32At_eq {f : Nat → UInt8} {off : Nat} {v : UInt32}
    (h : ∀ k < 4, f (off + k) = le32 v k) : u32At f off = v := by
  have h0 := h 0 (by omega)
  have h1 := h 1 (by omega)
  have h2 := h 2 (by omega)
  have h3 := h 3 (by omega)
  rw [Nat.add_zero] at h0
  apply UInt32.toNat_inj.mp
  rw [u32At, h0, h1, h2, h3]
  simp only [le32_toNat, UInt32.toNat_ofNat']
  have hv := v.toNat_lt
  omega

variable (f : Nat → UInt8)

theorem le32_u32At (off : Nat) {k : Nat} (hk : k < 4) :
    le32 (u32At f off) k = f (off + k) := by
  apply UInt8.toNat_inj.mp
  rw [le32_toNat, u32At, UInt32.toNat_ofNat']
  have h0 := (f off).toNat_lt
  have h1 := (f (off + 1)).toNat_lt
  have h2 := (f (off + 2)).toNat_lt
  have h3 := (f (off + 3)).toNat_lt
  interval_cases k <;> try simp only [Nat.add_zero]
  all_goals omega

theorem u16At_eq {f : Nat → UInt8} {off : Nat} {v : UInt16}
    (h : ∀ k < 2, f (off + k) = le16 v k) : u16At f off = v := by
  have h0 := h 0 (by omega)
  have h1 := h 1 (by omega)
  rw [Nat.add_zero] at h0
  apply UInt16.toNat_inj.mp
  rw [u16At, h0, h1]
  simp only [le16_toNat, UInt16.toNat_ofNat']
  have hv := v.toNat_lt
  omega

theorem le16_u16At (off : Nat) {k : Nat} (hk : k < 2) :
    le16 (u16At f off) k = f (off + k) := by
  apply UInt8.toNat_inj.mp
  rw [le16_toNat, u16At, UInt16.toNat_ofNat']
  have h0 := (f off).toNat_lt
  have h1 := (f (off + 1)).toNat_lt
  interval_cases k <;> try simp only [Nat.add_zero]
  all_goals omega

theorem u32At_congr {f g : Nat → UInt8} {off off' : Nat}
    (h : ∀ k < 4, f (off + k) = g (off' + k)) : u32At f off = u32At g off' := by
  have h0 := h 0 (by omega)
  rw [Nat.add_zero, Nat.add_zero] at h0
  rw [u32At, u32At, h0, h 1 (by omega), h 2 (by omega), h 3 (by omega)]

theorem u16At_congr {f g : Nat → UInt8} {off off' : Nat}
    (h : ∀ k < 2, f (off + k) = g (off' + k)) : u16At f off = u16At g off' := by
  have h0 := h 0 (by omega)
  rw [Nat.add_zero, Nat.add_zero] at h0
  rw [u16At, u16At, h0, h 1 (by omega)]

/-- The bytes `f 0, ..., f (n - 1)` as one number. -/
def packBytes (f : Nat → UInt8) : Nat → Nat
  | 0 => 0
  | n + 1 => packBytes f n ||| ((f n).toNat <<< (8 * n))

theorem packBytes_congr {f g : Nat → UInt8} {n : Nat} (h : ∀ k < n, f k = g k) :
    packBytes f n = packBytes g n := by
  induction n with
  | zero => rfl
  | succ n ih =>
    rw [packBytes, packBytes, ih fun k hk => h k (Nat.lt_succ_of_lt hk), h n (Nat.lt_succ_self n)]

theorem UInt8.testBit_of_le (v : UInt8) {j : Nat} (h : 8 ≤ j) : v.toNat.testBit j = false :=
  Nat.testBit_lt_two_pow (Nat.lt_of_lt_of_le v.toNat_lt (Nat.pow_le_pow_right (by omega) h))

theorem testBit_packBytes (n k : Nat) : (packBytes f n).testBit k =
      (decide (k / 8 < n) && (f (k / 8)).toNat.testBit (k % 8)) := by
  induction n with
  | zero => simp [packBytes]
  | succ n ih =>
    rw [packBytes, Nat.testBit_or, ih, Nat.testBit_shiftLeft]
    rcases Nat.lt_trichotomy (k / 8) n with hlt | heq | hgt
    · have hk : ¬ 8 * n ≤ k := by omega
      simp [hlt, hk, Nat.lt_succ_of_lt hlt]
    · have hk : 8 * n ≤ k := by omega
      have hmod : k - 8 * n = k % 8 := by omega
      simp [heq, hk, hmod]
    · have hk : 8 ≤ k - 8 * n := by omega
      have hn : ¬ k / 8 < n := by omega
      have hn' : ¬ k / 8 < n + 1 := by omega
      simp [hn, hn', UInt8.testBit_of_le _ hk]

theorem packBytes_lt (n : Nat) : packBytes f n < 2 ^ (8 * n) := by
  apply Nat.lt_pow_two_of_testBit
  intro k hk
  have hdiv : ¬ k / 8 < n := by omega
  simp [testBit_packBytes, hdiv]

theorem UInt8.eq_of_testBit {a b : UInt8}
    (h : ∀ j < 8, a.toNat.testBit j = b.toNat.testBit j) : a = b := by
  apply UInt8.toNat_inj.mp
  apply Nat.eq_of_testBit_eq
  intro j
  by_cases hj : j < 8
  · exact h j hj
  · rw [UInt8.testBit_of_le a (by omega), UInt8.testBit_of_le b (by omega)]

namespace Image

variable {n : Nat}

/-- The byte at position `i`; positions past the end read as zero. -/
def get (b : Image n) (i : Nat) : UInt8 := UInt8.ofNat (b.bits >>> (8 * i))

/-- The image whose byte `i` is `f i`. -/
def ofFn (f : Nat → UInt8) : Image n := ⟨packBytes f n, packBytes_lt f n⟩

def zero : Image n := ⟨0, Nat.two_pow_pos _⟩

/-- Overwrite `len` bytes from position `off` on with `f 0, f 1, ...`. -/
def splice (b : Image n) (off len : Nat) (f : Nat → UInt8) : Image n where
  bits := (b.bits % 2 ^ (8 * off) ||| packBytes f len <<< (8 * off) |||
    (b.bits >>> (8 * (off + len))) <<< (8 * (off + len))) % 2 ^ (8 * n)
  bits_lt := Nat.mod_lt _ (Nat.two_pow_pos _)

/-- Part number `i` of the image, cut into parts of `m` bytes. -/
def part (b : Image n) (m i : Nat) : Image m where
  bits := (b.bits >>> (8 * (m * i))) % 2 ^ (8 * m)
  bits_lt := Nat.mod_lt _ (Nat.two_pow_pos _)

/-- The parts `f 0, ..., f (count - 1)` one after the other, as a number. -/
def packParts {m : Nat} (f : Nat → Image m) : Nat → Nat
  | 0 => 0
  | count + 1 => packParts f count ||| (f count).bits <<< (8 * (m * count))

/-- Parts put together to an image of `n` bytes; what is past them is zero. -/
def join {m : Nat} (f : Nat → Image m) (count : Nat) : Image n where
  bits := packParts f count % 2 ^ (8 * n)
  bits_lt := Nat.mod_lt _ (Nat.two_pow_pos _)

/-- The 32-bit word number `w`. -/
def word (b : Image n) (w : Nat) : UInt32 := u32At b.get (4 * w)

/-- Overwrite the 32-bit word number `w`. -/
def setWord (b : Image n) (w : Nat) (v : UInt32) : Image n :=
  b.splice (4 * w) 4 (le32 v)

def toList (b : Image n) : List UInt8 := (List.range n).map b.get

variable (b : Image n)

theorem testBit_get (i j : Nat) (hj : j < 8) :
    (b.get i).toNat.testBit j = b.bits.testBit (8 * i + j) := by
  rw [get, UInt8.toNat_ofNat', Nat.testBit_mod_two_pow, Nat.testBit_shiftRight]
  simp [hj]

theorem testBit_of_le {k : Nat} (h : 8 * n ≤ k) : b.bits.testBit k = false :=
  Nat.testBit_lt_two_pow (Nat.lt_of_lt_of_le b.bits_lt (Nat.pow_le_pow_right (by omega) h))

@[ext]
theorem ext {a b : Image n} (h : ∀ i < n, a.get i = b.get i) : a = b := by
  have hbits : a.bits = b.bits := by
    apply Nat.eq_of_testBit_eq
    intro k
    by_cases hk : k < 8 * n
    · have hbyte := congrArg (fun v => v.toNat.testBit (k % 8)) (h (k / 8) (by omega))
      simp only [testBit_get _ _ _ (Nat.mod_lt k (by omega)), Nat.div_add_mod] at hbyte
      exact hbyte
    · rw [testBit_of_le a (by omega), testBit_of_le b (by omega)]
  cases a
  cases b
  congr

theorem get_of_le {i : Nat} (h : n ≤ i) : b.get i = 0 := by
  apply UInt8.eq_of_testBit
  intro j hj
  rw [testBit_get _ _ _ hj, testBit_of_le _ (by omega)]
  simp

@[simp]
theorem get_ofFn (f : Nat → UInt8) (i : Nat) :
    (ofFn f : Image n).get i = if i < n then f i else 0 := by
  by_cases h : i < n
  · rw [if_pos h]
    apply UInt8.eq_of_testBit
    intro j hj
    have hdiv : (8 * i + j) / 8 = i := by omega
    have hmod : (8 * i + j) % 8 = j := by omega
    rw [testBit_get _ _ _ hj, ofFn, testBit_packBytes, hdiv, hmod]
    simp [h]
  · rw [if_neg h, get_of_le _ (Nat.not_lt.mp h)]

@[simp]
theorem get_zero (i : Nat) : (zero : Image n).get i = 0 := by
  simp [zero, get]

theorem get_splice (off len : Nat) (f : Nat → UInt8) (i : Nat) :
    (b.splice off len f).get i =
      if i < n ∧ off ≤ i ∧ i < off + len then f (i - off) else b.get i := by
  by_cases hn : i < n
  · apply UInt8.eq_of_testBit
    intro j hj
    rw [testBit_get _ _ _ hj, splice, Nat.testBit_mod_two_pow, Nat.testBit_or,
      Nat.testBit_or, Nat.testBit_mod_two_pow, Nat.testBit_shiftLeft,
      Nat.testBit_shiftLeft, Nat.testBit_shiftRight, testBit_packBytes]
    have hin : 8 * i + j < 8 * n := by omega
    rcases Nat.lt_or_ge i off with hlow | hlow
    · have h1 : 8 * i + j < 8 * off := by omega
      have h2 : ¬ 8 * off ≤ 8 * i + j := by omega
      have h3 : ¬ 8 * (off + len) ≤ 8 * i + j := by omega
      have h4 : ¬ off ≤ i := by omega
      simp [hin, h1, h2, h3, h4, testBit_get _ _ _ hj]
    · rcases Nat.lt_or_ge i (off + len) with hmid | hhigh
      · have h1 : ¬ 8 * i + j < 8 * off := by omega
        have h2 : 8 * off ≤ 8 * i + j := by omega
        have h3 : ¬ 8 * (off + len) ≤ 8 * i + j := by omega
        have hdiv : (8 * i + j - 8 * off) / 8 = i - off := by omega
        have hmod : (8 * i + j - 8 * off) % 8 = j := by omega
        have h4 : i - off < len := by omega
        simp [hin, h1, h2, h3, hdiv, hmod, h4, hn, hlow, hmid]
      · have h1 : ¬ 8 * i + j < 8 * off := by omega
        have h2 : 8 * off ≤ 8 * i + j := by omega
        have h3 : 8 * (off + len) ≤ 8 * i + j := by omega
        have hdiv : ¬ (8 * i + j - 8 * off) / 8 < len := by omega
        have hsum : 8 * (off + len) + (8 * i + j - 8 * (off + len)) = 8 * i + j := by
          omega
        have h4 : ¬ i < off + len := by omega
        simp [hin, h1, h2, h3, hdiv, hsum, h4, testBit_get _ _ _ hj]
  · rw [if_neg (fun h => hn h.1), get_of_le _ (Nat.not_lt.mp hn), get_of_le _ (Nat.not_lt.mp hn)]

theorem get_splice_outside {off len : Nat} (f : Nat → UInt8)
    {i : Nat} (h : i < off ∨ off + len ≤ i) :
    (b.splice off len f).get i = b.get i := by
  rw [get_splice, if_neg (by omega)]

theorem get_splice_inside {off len : Nat} (f : Nat → UInt8)
    {k : Nat} (hk : k < len) (hfit : off + len ≤ n) :
    (b.splice off len f).get (off + k) = f k := by
  rw [get_splice, if_pos (by omega), Nat.add_sub_cancel_left]

theorem get_part {m i k : Nat} (hk : k < m) :
    (b.part m i).get k = b.get (m * i + k) := by
  apply UInt8.eq_of_testBit
  intro j hj
  have hlt : 8 * k + j < 8 * m := by omega
  have hsum : 8 * (m * i) + (8 * k + j) = 8 * (m * i + k) + j := by ring
  rw [testBit_get _ _ _ hj, testBit_get _ _ _ hj, part, Nat.testBit_mod_two_pow,
    Nat.testBit_shiftRight, hsum]
  simp [hlt]

variable {m : Nat}

theorem testBit_packParts (hm : 0 < m) (f : Nat → Image m) (count k : Nat) :
    (packParts f count).testBit k = (decide (k / (8 * m) < count) &&
      (f (k / (8 * m))).bits.testBit (k % (8 * m))) := by
  have hpos : 0 < 8 * m := by omega
  induction count with
  | zero => simp [packParts]
  | succ count ih =>
    have hassoc : 8 * (m * count) = 8 * m * count := by ring
    rw [packParts, Nat.testBit_or, ih, Nat.testBit_shiftLeft, hassoc]
    rcases Nat.lt_trichotomy (k / (8 * m)) count with hlt | heq | hgt
    · have hk : ¬ 8 * m * count ≤ k := by
        rw [Nat.not_le, Nat.mul_comm]
        exact (Nat.div_lt_iff_lt_mul hpos).mp hlt
      simp [hlt, hk, Nat.lt_succ_of_lt hlt]
    · have hdecomp := Nat.div_add_mod k (8 * m)
      rw [heq] at hdecomp
      have hk : 8 * m * count ≤ k := by omega
      have hmod : k - 8 * m * count = k % (8 * m) := by omega
      simp [heq, hk, hmod]
    · have hk : (count + 1) * (8 * m) ≤ k :=
        (Nat.le_div_iff_mul_le hpos).mp hgt
      have hk' : 8 * m ≤ k - 8 * m * count := by
        rw [Nat.add_mul, Nat.one_mul, Nat.mul_comm count] at hk
        omega
      have hn : ¬ k / (8 * m) < count := by omega
      have hn' : ¬ k / (8 * m) < count + 1 := by omega
      simp [hn, hn', testBit_of_le _ hk']

theorem join_part (hm : 0 < m) {count : Nat} (hcount : n = m * count)
    (b : Image n) {f : Nat → Image m} (hf : ∀ i < count, f i = b.part m i) :
    join f count = b := by
  apply ext
  intro i hi
  apply UInt8.eq_of_testBit
  intro j hj
  have hlt : 8 * i + j < 8 * n := by omega
  have hdiv : (8 * i + j) / (8 * m) < count := by
    rw [Nat.div_lt_iff_lt_mul (by omega)]
    calc 8 * i + j < 8 * n := hlt
      _ = count * (8 * m) := by rw [hcount]; ring
  rw [testBit_get _ _ _ hj, testBit_get _ _ _ hj, join, Nat.testBit_mod_two_pow,
    testBit_packParts hm, hf _ hdiv, part, Nat.testBit_mod_two_pow,
    Nat.testBit_shiftRight]
  have hmod : (8 * i + j) % (8 * m) < 8 * m := Nat.mod_lt _ (by omega)
  have hsum : 8 * (m * ((8 * i + j) / (8 * m))) + (8 * i + j) % (8 * m) = 8 * i + j := by
    rw [← Nat.mul_assoc]
    exact Nat.div_add_mod _ _
  simp [hlt, hdiv, hmod, hsum]

theorem join_congr {count : Nat} {f g : Nat → Image m}
    (h : ∀ i < count, f i = g i) : (join f count : Image n) = join g count := by
  have hpack : ∀ c ≤ count, packParts f c = packParts g c := by
    intro c hc
    induction c with
    | zero => rfl
    | succ c ih => rw [packParts, packParts, ih (by omega), h c (by omega)]
  unfold join
  congr 2
  exact hpack count (Nat.le_refl _)

@[simp]
theorem word_zero (w : Nat) : (zero : Image n).word w = 0 := by
  rw [word, u32At]
  simp

theorem word_setWord_self {w : Nat} (v : UInt32)
    (hfit : 4 * w + 4 ≤ n) : (b.setWord w v).word w = v := by
  apply u32At_eq
  intro k hk
  exact get_splice_inside b (le32 v) hk hfit

theorem word_setWord_ne {w w' : Nat} (v : UInt32)
    (hne : w' ≠ w) : (b.setWord w v).word w' = b.word w' := by
  apply u32At_congr
  intro k hk
  apply get_splice_outside
  omega

theorem setWord_eq_self {b : Image n} {w : Nat} {v : UInt32}
    (h : b.word w = v) : b.setWord w v = b := by
  apply ext
  intro i hi
  rw [setWord, get_splice]
  split_ifs with hin
  · rw [← h, word, le32_u32At _ _ (by omega)]
    congr 1
    omega
  · rfl

end Image

end ZiqaKernel
