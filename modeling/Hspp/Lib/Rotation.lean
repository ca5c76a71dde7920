import Mathlib.Tactic
import Mathlib.Data.Int.CardIntervalMod

/-! # Taking turns

`turns n k len` are the first `len` turns of `n` parties that take them in a circle, from
party `k % n` on.  Each party comes up once in `n` turns, so of two parties neither is more
than one turn ahead of the other (`count_turns`). -/

namespace Rotation

/-- The parties of `len` turns, one after the other in a circle of `n`. -/
def turns (n k len : ℕ) : List ℕ := (List.range len).map fun i => (k + i) % n

variable {n : ℕ} (k len : ℕ)

@[simp] theorem length_turns (n k len : ℕ) : (turns n k len).length = len := by
  simp [turns]

theorem turns_succ (n k len : ℕ) : turns n k (len + 1) = turns n k len ++ [(k + len) % n] := by
  simp only [turns, List.range_succ, List.map_append, List.map_singleton]

/-- The turns of a party are those of the numbers of its residue class. -/
theorem count_turns_add (r : ℕ) :
    Nat.count (· % n = r) k + (turns n k len).count r = Nat.count (· % n = r) (k + len) := by
  rw [Nat.count_add]
  congr 1
  rw [Nat.count_eq_card_filter_range]
  induction len with
  | zero => rfl
  | succ len ih =>
      rw [turns_succ, List.count_append, ih, Finset.range_add_one, Finset.filter_insert]
      by_cases h : (k + len) % n = r
      · rw [if_pos h, Finset.card_insert_of_notMem (by simp), h, List.count_singleton_self]
      · rw [if_neg h, List.count_singleton, if_neg (by simpa using h), add_zero]

/-- A party gets its share of the turns, or one more. -/
theorem count_turns {r : ℕ} (hr : r < n) :
    len / n ≤ (turns n k len).count r ∧ (turns n k len).count r ≤ len / n + 1 := by
  have hn : 0 < n := Nat.zero_lt_of_lt hr
  have hcount (b : ℕ) : Nat.count (· % n = r) b = b / n + if r < b % n then 1 else 0 := by
    have hmod : (fun x => x % n = r) = fun x => x ≡ r [MOD n] :=
      funext fun x => by rw [Nat.ModEq, Nat.mod_eq_of_lt hr]
    simp only [hmod, Nat.count_modEq_card b hn r, Nat.mod_eq_of_lt hr]
  have hadd := count_turns_add (n := n) k len r
  rw [hcount, hcount, Nat.add_div hn] at hadd
  have hmod : (k + len) % n =
      if n ≤ k % n + len % n then k % n + len % n - n else k % n + len % n := by
    rw [Nat.add_mod_eq_ite]
  rw [hmod] at hadd
  have hk := Nat.mod_lt k hn
  have hlen := Nat.mod_lt len hn
  split_ifs at hadd <;> omega

end Rotation
