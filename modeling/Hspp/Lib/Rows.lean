import Mathlib.Tactic

/-! # Rows of a list

`rows w xs` are the pieces of length `w` that a list is cut into, the last one shorter if the
length is not a multiple of `w`.  There are `⌈xs.length / w⌉` of them (`length_rows`), and the
list can be put together again (`flatten_rows`); `rows_of_ne_nil` is the step of a loop that
takes one row after the other.  Only the last row may be shorter (`isChain_rows`). -/

namespace Rows

variable {α : Type*} {w : ℕ}

/-- The rows of width `w`. -/
def rows (w : ℕ) (xs : List α) : List (List α) :=
  (List.range ((xs.length + w - 1) / w)).map fun k => (xs.drop (w * k)).take w

theorem length_rows (w : ℕ) (xs : List α) : (rows w xs).length = (xs.length + w - 1) / w := by
  rw [rows, List.length_map, List.length_range]

theorem rows_nil (hw : 0 < w) : rows w ([] : List α) = [] := by
  rw [rows, List.length_nil, Nat.div_eq_of_lt (by omega), List.range_zero, List.map_nil]

/-- The first row and those of the rest. -/
theorem rows_of_ne_nil (hw : 0 < w) {xs : List α} (h : xs ≠ []) :
    rows w xs = xs.take w :: rows w (xs.drop w) := by
  have hpos : 0 < xs.length := List.length_pos_iff.mpr h
  have hcount : (xs.length + w - 1) / w = (xs.length - w + w - 1) / w + 1 := by
    obtain hlt | hge := Nat.lt_or_ge xs.length w
    · have hone : (xs.length + w - 1) / w = 1 :=
        Nat.div_eq_of_lt_le (by omega) (by omega)
      rw [hone, Nat.sub_eq_zero_of_le hlt.le, Nat.div_eq_of_lt (show 0 + w - 1 < w by omega)]
    · rw [show xs.length + w - 1 = xs.length - w + w - 1 + w by omega, Nat.add_div_right _ hw]
  rw [rows, hcount, List.range_succ_eq_map, List.map_cons, List.map_map, Nat.mul_zero,
    List.drop_zero, rows, List.length_drop]
  congr 1
  apply List.map_congr_left
  intro k _
  rw [Function.comp_apply, List.drop_drop, Nat.mul_succ, Nat.add_comm]

theorem flatten_rows (hw : 0 < w) (xs : List α) : (rows w xs).flatten = xs := by
  induction hn : xs.length using Nat.strong_induction_on generalizing xs with
  | _ n ih =>
      obtain rfl | h := eq_or_ne xs []
      · rw [rows_nil hw, List.flatten_nil]
      · have hpos : 0 < xs.length := List.length_pos_iff.mpr h
        rw [rows_of_ne_nil hw h, List.flatten_cons,
          ih (xs.length - w) (by omega) (xs.drop w) List.length_drop, List.take_append_drop]

/-- No row is empty or longer than `w`. -/
theorem length_of_mem_rows (hw : 0 < w) {xs r : List α} (hr : r ∈ rows w xs) :
    0 < r.length ∧ r.length ≤ w := by
  obtain ⟨k, hk, rfl⟩ := List.mem_map.mp hr
  have hlt : w * k + w ≤ xs.length + w - 1 := by
    have := (Nat.le_div_iff_mul_le hw).mp (List.mem_range.mp hk)
    rw [Nat.succ_mul] at this
    rw [Nat.mul_comm]
    exact this
  rw [List.length_take, List.length_drop]
  omega

/-- Every row but the last one is full. -/
theorem isChain_rows (hw : 0 < w) (xs : List α) :
    (rows w xs).IsChain fun r _ => r.length = w := by
  induction hn : xs.length using Nat.strong_induction_on generalizing xs with
  | _ n ih =>
      obtain rfl | h := eq_or_ne xs []
      · rw [rows_nil hw]
        exact .nil
      · have hpos : 0 < xs.length := List.length_pos_iff.mpr h
        rw [rows_of_ne_nil hw h, List.isChain_cons]
        refine ⟨fun r hr => ?_, ih (xs.length - w) (by omega) (xs.drop w) List.length_drop⟩
        have hlt : w < xs.length := by
          by_contra hge
          rw [List.drop_of_length_le (Nat.le_of_not_lt hge), rows_nil hw] at hr
          cases hr
        exact List.length_take_of_le hlt.le

end Rows
