import Mathlib.Tactic

/-! # C integer conversions and mask alignment

Values of C integer types are natural numbers or integers; what a conversion or a wrapping
operation does to them is said by `toUnsigned w` and `toSigned w`, for a type of `w` bits.

The usual rounding macro `(x + a - 1) & ~(a - 1)` is `alignUp w a x`, computed on machine
words.  For a power of two `a` it is `roundUp a x`, the least multiple of `a` above `x`,
as long as the sum does not leave the word (`alignUp_of_lt`); beyond that it wraps
(`alignUp_eq`). -/

namespace CInt

/-- The value of `x` converted to an unsigned type of `w` bits. -/
def toUnsigned (w : ℕ) (x : ℤ) : ℕ := (x % 2 ^ w).toNat

/-- The value of `x` converted to a signed type of `w` bits, two's complement. -/
def toSigned (w : ℕ) (x : ℤ) : ℤ := x.bmod (2 ^ w)

theorem toUnsigned_of_nonneg {w : ℕ} {x : ℤ} (h0 : 0 ≤ x) (h : x < 2 ^ w) :
    (toUnsigned w x : ℤ) = x := by
  unfold toUnsigned
  rw [Int.toNat_of_nonneg (Int.emod_nonneg _ (by positivity)), Int.emod_eq_of_lt h0 h]

theorem toUnsigned_ofNat {w n : ℕ} (h : n < 2 ^ w) : toUnsigned w n = n := by
  have := toUnsigned_of_nonneg (w := w) (x := n) (by omega) (by exact_mod_cast h)
  exact_mod_cast this

/-- A negative value becomes a huge unsigned one. -/
theorem toUnsigned_of_neg {w : ℕ} {x : ℤ} (h0 : x < 0) (h : -(2 ^ w) ≤ x) :
    (toUnsigned w x : ℤ) = x + 2 ^ w := by
  unfold toUnsigned
  rw [Int.toNat_of_nonneg (Int.emod_nonneg _ (by positivity)), ← Int.add_emod_right,
    Int.emod_eq_of_lt (by omega) (by omega)]

theorem toUnsigned_lt (w : ℕ) (x : ℤ) : toUnsigned w x < 2 ^ w := by
  have h := Int.emod_lt_of_pos x (b := 2 ^ w) (by positivity)
  have h0 := Int.emod_nonneg x (b := 2 ^ w) (by positivity)
  unfold toUnsigned
  zify
  omega

/-- A value in the range of the signed type is kept. -/
theorem toSigned_of_mem {w : ℕ} {x : ℤ} (hl : -(2 ^ w) ≤ 2 * x) (hu : 2 * x < 2 ^ w) :
    toSigned w x = x := by
  unfold toSigned
  apply Int.bmod_eq_of_le_mul_two <;> push_cast <;> omega

/-- Converting to the signed type and back only reduces modulo `2 ^ w`. -/
theorem toUnsigned_toSigned (w : ℕ) (x : ℤ) : toUnsigned w (toSigned w x) = toUnsigned w x := by
  unfold toUnsigned toSigned
  have h := Int.bmod_emod (x := x) (m := 2 ^ w)
  push_cast at h
  rw [h]

/-- Converting to the unsigned type and back is converting to the signed one. -/
theorem toSigned_toUnsigned (w : ℕ) (x : ℤ) : toSigned w (toUnsigned w x) = toSigned w x := by
  have h := Int.emod_bmod (x := x) (n := 2 ^ w)
  unfold toUnsigned toSigned
  rw [Int.toNat_of_nonneg (Int.emod_nonneg _ (by positivity))]
  push_cast at h ⊢
  exact h

theorem toSigned_toSigned (w : ℕ) (x : ℤ) : toSigned w (toSigned w x) = toSigned w x :=
  Int.bmod_bmod

/-- Sign extension: a signed value read in a wider unsigned type passes a bound below half
the narrow range just when it does in the narrow one. -/
theorem le_toUnsigned_toSigned {w v n : ℕ} (x : ℤ) (hwv : w ≤ v) (hn : 2 * n ≤ 2 ^ w) :
    n ≤ toUnsigned v (toSigned w x) ↔ n ≤ toUnsigned w x := by
  have hlt := toUnsigned_lt w x
  have hpow : 2 ^ w ≤ 2 ^ v := Nat.pow_le_pow_right (by norm_num) hwv
  have hx : (toUnsigned w x : ℤ) = x % 2 ^ w :=
    Int.toNat_of_nonneg (Int.emod_nonneg x (by positivity))
  have hbm : toSigned w x =
      if 2 * (x % 2 ^ w) < 2 ^ w then x % 2 ^ w else x % 2 ^ w - 2 ^ w := by
    rw [toSigned, Int.bmod_def]
    push_cast
    split_ifs <;> omega
  rw [hbm, ← hx]
  zify at hpow hn hlt
  split_ifs with h
  · rw [toUnsigned_ofNat (by zify; omega)]
  · have := toUnsigned_of_neg (w := v) (x := toUnsigned w x - 2 ^ w) (by omega) (by omega)
    omega

/-! ### Rounding up -/

/-- The least multiple of `a` that is at least `x`. -/
def roundUp (a x : ℕ) : ℕ := (x + a - 1) / a * a

/-- `(x + a - 1) & ~(a - 1)` on unsigned words of `w` bits. -/
def alignUp (w a x : ℕ) : ℕ := (BitVec.ofNat w (x + a - 1) &&& ~~~BitVec.ofNat w (a - 1)).toNat

theorem and_not_mask {w k : ℕ} (x : BitVec w) (hk : k ≤ w) :
    (x &&& ~~~BitVec.ofNat w (2 ^ k - 1)).toNat = x.toNat / 2 ^ k * 2 ^ k := by
  apply Nat.eq_of_testBit_eq
  intro i
  rw [BitVec.testBit_toNat, Nat.testBit_mul_two_pow, Nat.testBit_div_two_pow]
  have hlt : 2 ^ k - 1 < 2 ^ w := by
    have := Nat.pow_le_pow_right (show 0 < 2 by decide) hk
    have := Nat.two_pow_pos k
    omega
  simp only [BitVec.getLsbD_and, BitVec.getLsbD_not, BitVec.getLsbD_ofNat,
    Nat.testBit_two_pow_sub_one]
  by_cases hik : k ≤ i
  · rw [show i - k + k = i by omega, BitVec.testBit_toNat]
    by_cases hiw : i < w
    · simp [hik, hiw, Nat.not_lt.mpr hik]
    · simp [hik, hiw, BitVec.getLsbD_of_ge x i (by omega)]
  · simp [hik, Nat.lt_of_not_le hik]

/-- The masked sum is the rounded sum, reduced to the word first. -/
theorem alignUp_eq {w k : ℕ} (x : ℕ) (hk : k ≤ w) :
    alignUp w (2 ^ k) x = (x + 2 ^ k - 1) % 2 ^ w / 2 ^ k * 2 ^ k := by
  rw [alignUp, and_not_mask _ hk, BitVec.toNat_ofNat]

theorem alignUp_of_lt {w k x : ℕ} (hk : k ≤ w) (hx : x + 2 ^ k - 1 < 2 ^ w) :
    alignUp w (2 ^ k) x = roundUp (2 ^ k) x := by
  rw [alignUp_eq x hk, Nat.mod_eq_of_lt hx, roundUp]

theorem le_roundUp {a : ℕ} (ha : 0 < a) (x : ℕ) : x ≤ roundUp a x := by
  have := Nat.div_add_mod (x + a - 1) a
  have := Nat.mod_lt (x + a - 1) ha
  rw [roundUp, Nat.mul_comm]
  omega

theorem roundUp_lt {a : ℕ} (ha : 0 < a) (x : ℕ) : roundUp a x < x + a := by
  have := Nat.div_mul_le_self (x + a - 1) a
  unfold roundUp
  omega

theorem dvd_roundUp (a x : ℕ) : a ∣ roundUp a x := Dvd.intro_left _ rfl

end CInt
