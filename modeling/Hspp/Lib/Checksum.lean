import Mathlib.Tactic
import Mathlib.Data.Nat.ModEq

/-! # One's complement sums

`onesSum w` adds words of `w` bits with the carry brought round to the end.  It is the sum
modulo `2 ^ w - 1`, with `2 ^ w - 1` in place of zero unless all words are zero
(`onesSum_eq_max_iff`).

A header verifies when the sum of its words of 16 bits, the checksum among them, has all bits
set.  Where one part of a header that verifies is replaced, it verifies again only if the part
has the same sum modulo `2 ^ 16 - 1` (`Verifies.replace`). -/

namespace Checksum

/-- Addition with end-around carry. -/
def onesAdd (w a b : ℕ) : ℕ := (a + b) % 2 ^ w + (a + b) / 2 ^ w

def onesSum (w : ℕ) (ws : List ℕ) : ℕ := ws.foldl (onesAdd w) 0

/-- The words of 16 bits of a byte string, high byte first. -/
def beWords : List UInt8 → List ℕ
  | a :: b :: bs => (256 * a.toNat + b.toNat) :: beWords bs
  | [a] => [256 * a.toNat]
  | [] => []

/-- The checksum in the byte string is right. -/
def Verifies (bs : List UInt8) : Prop := onesSum 16 (beWords bs) = 2 ^ 16 - 1

instance (bs : List UInt8) : Decidable (Verifies bs) := inferInstanceAs (Decidable (_ = _))

/-! ### Sums -/

variable {w : ℕ}

theorem onesAdd_modEq (w a b : ℕ) : onesAdd w a b ≡ a + b [MOD 2 ^ w - 1] := by
  have hsplit := Nat.mod_add_div (a + b) (2 ^ w)
  have hone : 2 ^ w ≡ 1 [MOD 2 ^ w - 1] :=
    ((Nat.modEq_iff_dvd' Nat.one_le_two_pow).mpr dvd_rfl).symm
  calc onesAdd w a b = (a + b) % 2 ^ w + 1 * ((a + b) / 2 ^ w) := by rw [onesAdd, Nat.one_mul]
    _ ≡ (a + b) % 2 ^ w + 2 ^ w * ((a + b) / 2 ^ w) [MOD 2 ^ w - 1] :=
        (hone.symm.mul_right _).add_left _
    _ = a + b := hsplit

/-- The sum of two words is a word. -/
theorem onesAdd_lt {a b : ℕ} (ha : a < 2 ^ w) (hb : b < 2 ^ w) : onesAdd w a b < 2 ^ w := by
  have hsplit := Nat.mod_add_div (a + b) (2 ^ w)
  have hmod := Nat.mod_lt (a + b) (Nat.two_pow_pos w)
  have hcarry : (a + b) / 2 ^ w < 2 := Nat.div_lt_of_lt_mul (by omega)
  unfold onesAdd
  obtain h | h := Nat.le_one_iff_eq_zero_or_eq_one.mp (Nat.lt_succ_iff.mp hcarry)
  · rw [h]
    exact hmod
  · rw [h, Nat.mul_one] at hsplit
    omega

theorem onesAdd_eq_zero_iff {a b : ℕ} : onesAdd w a b = 0 ↔ a + b = 0 := by
  have hsplit := Nat.mod_add_div (a + b) (2 ^ w)
  constructor
  · intro h
    obtain ⟨hmod, hdiv⟩ := Nat.add_eq_zero_iff.mp h
    rw [hmod, hdiv, Nat.mul_zero] at hsplit
    exact hsplit.symm
  · intro h
    rw [onesAdd, h, Nat.zero_mod, Nat.zero_div]

/-- What holds of the sum of the words behind `a`. -/
theorem foldl_onesAdd : ∀ (ws : List ℕ) (a : ℕ), a < 2 ^ w → (∀ x ∈ ws, x < 2 ^ w) →
    ws.foldl (onesAdd w) a < 2 ^ w ∧ ws.foldl (onesAdd w) a ≡ a + ws.sum [MOD 2 ^ w - 1] ∧
      (ws.foldl (onesAdd w) a = 0 ↔ a + ws.sum = 0)
  | [], a, ha, _ => ⟨ha, Nat.ModEq.refl _, Iff.rfl⟩
  | x :: ws, a, ha, hws => by
      have hx : x < 2 ^ w := hws x (.head _)
      obtain ⟨hlt, hmod, hzero⟩ := foldl_onesAdd ws (onesAdd w a x) (onesAdd_lt ha hx)
        fun y hy => hws y (.tail _ hy)
      rw [List.foldl_cons, List.sum_cons, ← Nat.add_assoc]
      refine ⟨hlt, hmod.trans ((onesAdd_modEq w a x).add_right _), hzero.trans ?_⟩
      rw [Nat.add_eq_zero_iff, onesAdd_eq_zero_iff, ← Nat.add_eq_zero_iff]

/-- **Sums**: all bits of the sum are set when the words add up to a multiple of `2 ^ w - 1`
that is not zero. -/
theorem onesSum_eq_max_iff (hw : 0 < w) {ws : List ℕ} (hws : ∀ x ∈ ws, x < 2 ^ w) :
    onesSum w ws = 2 ^ w - 1 ↔ 2 ^ w - 1 ∣ ws.sum ∧ ws.sum ≠ 0 := by
  obtain ⟨hlt, hmod, hzero⟩ := foldl_onesAdd ws 0 (Nat.two_pow_pos w) hws
  rw [Nat.zero_add] at hmod hzero
  have htwo : 2 ≤ 2 ^ w := Nat.le_self_pow hw.ne' 2
  unfold onesSum
  constructor
  · intro h
    rw [h] at hmod hzero
    exact ⟨(Nat.modEq_zero_iff_dvd.mp (hmod.symm.trans (by simp [Nat.ModEq]))),
      fun h0 => by have := hzero.mpr h0; omega⟩
  · rintro ⟨hdvd, hne⟩
    have hpos := mt hzero.mp hne
    have hdvd' : 2 ^ w - 1 ∣ ws.foldl (onesAdd w) 0 :=
      Nat.modEq_zero_iff_dvd.mp (hmod.trans (Nat.modEq_zero_iff_dvd.mpr hdvd))
    exact Nat.le_antisymm (by omega) (Nat.le_of_dvd (by omega) hdvd')

/-! ### Headers -/

theorem lt_of_mem_beWords : ∀ {bs : List UInt8}, ∀ x ∈ beWords bs, x < 2 ^ 16
  | [], x, hx => by cases hx
  | [a], x, hx => by
      have ha := a.toNat_lt
      rw [beWords, List.mem_singleton] at hx
      omega
  | a :: b :: bs, x, hx => by
      have ha := a.toNat_lt
      have hb := b.toNat_lt
      rw [beWords] at hx
      rcases List.mem_cons.mp hx with rfl | hx
      · omega
      · exact lt_of_mem_beWords x hx

theorem verifies_iff (bs : List UInt8) :
    Verifies bs ↔ 2 ^ 16 - 1 ∣ (beWords bs).sum ∧ (beWords bs).sum ≠ 0 :=
  onesSum_eq_max_iff (by norm_num) lt_of_mem_beWords

theorem beWords_append : ∀ {as : List UInt8} (bs : List UInt8), 2 ∣ as.length →
    beWords (as ++ bs) = beWords as ++ beWords bs
  | [], bs, _ => rfl
  | [a], bs, h => by simp at h
  | a :: b :: as, bs, h => by
      have h' : 2 ∣ as.length := by
        rw [List.length_cons, List.length_cons] at h
        omega
      rw [List.cons_append, List.cons_append, beWords, beWords, beWords_append bs h',
        List.cons_append]

/-- **Replacements**: a part of a header that verifies is replaced by one with the same sum, or
the header does not verify any more. -/
theorem Verifies.replace {as s s' bs : List UInt8} (h : Verifies (as ++ (s ++ bs)))
    (h' : Verifies (as ++ (s' ++ bs))) (has : 2 ∣ as.length) (hs : 2 ∣ s.length)
    (hs' : 2 ∣ s'.length) : (beWords s).sum ≡ (beWords s').sum [MOD 2 ^ 16 - 1] := by
  have hsum := ((verifies_iff _).mp h).1
  have hsum' := ((verifies_iff _).mp h').1
  rw [beWords_append _ has, beWords_append _ hs, List.sum_append, List.sum_append] at hsum
  rw [beWords_append _ has, beWords_append _ hs', List.sum_append, List.sum_append] at hsum'
  have hmod := (Nat.modEq_zero_iff_dvd.mpr hsum).trans (Nat.modEq_zero_iff_dvd.mpr hsum').symm
  exact Nat.ModEq.add_right_cancel' _ (Nat.ModEq.add_left_cancel' _ hmod)

end Checksum
