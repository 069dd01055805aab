import Amm.Fixed
import Mathlib.Algebra.Order.BigOperators.Group.List
import Mathlib.Algebra.Order.Field.Rat
import Mathlib.Data.Int.DivMod
import Mathlib.Tactic.Linarith

/-!
Quotients rounded down and up, compared with what they are quotients of. All divisors are positive. A
share rounded up is between nothing and the whole.
-/

namespace Amm

theorem Fixed.one_pos : 0 < Fixed.one := by
  decide

theorem le_fdiv_iff {a b c : Int} (positive : 0 < c) : a ≤ b.fdiv c ↔ a * c ≤ b := by
  rw [Int.fdiv_eq_ediv_of_nonneg b positive.le]
  exact Int.le_ediv_iff_mul_le positive

theorem fdiv_lt_iff {a b c : Int} (positive : 0 < c) : b.fdiv c < a ↔ b < a * c := by
  rw [← not_le, le_fdiv_iff positive, not_le]

theorem fdiv_le_iff {a b c : Int} (positive : 0 < c) : b.fdiv c ≤ a ↔ b < (a + 1) * c := by
  rw [← Int.lt_add_one_iff, fdiv_lt_iff positive]

/-- The quotient below `a`, raised by one, is the quotient of `a` rounded up. -/
theorem raised_le_iff {a b c : Int} (positive : 0 < b) : (a - 1).fdiv b + 1 ≤ c ↔ a ≤ c * b := by
  rw [Int.add_one_le_iff, fdiv_lt_iff positive, Int.sub_one_lt_iff]

theorem fdiv_le_fdiv {a b c : Int} (positive : 0 < c) (below : a ≤ b) : a.fdiv c ≤ b.fdiv c := by
  rw [le_fdiv_iff positive]
  exact ((le_fdiv_iff positive).mp le_rfl).trans below

theorem fdiv_le_fdiv_of_divisor {a b c : Int} (unsigned : 0 ≤ a) (positive : 0 < b) (wider : b ≤ c) :
    a.fdiv c ≤ a.fdiv b := by
  have divisor : 0 < c := positive.trans_le wider
  have quotient : 0 ≤ a.fdiv c := Int.fdiv_nonneg unsigned divisor.le
  rw [le_fdiv_iff positive]
  exact (mul_le_mul_of_nonneg_left wider quotient).trans ((le_fdiv_iff divisor).mp le_rfl)

theorem cast_fdiv_le {a c : Int} (positive : 0 < c) : ((a.fdiv c : Int) : ℚ) ≤ a / c := by
  rw [le_div_iff₀ (by exact_mod_cast positive)]
  exact_mod_cast (le_fdiv_iff positive).mp (le_refl (a.fdiv c))

theorem div_lt_cast_fdiv_add_one {a c : Int} (positive : 0 < c) :
    (a : ℚ) / c < (a.fdiv c : Int) + 1 := by
  rw [div_lt_iff₀ (by exact_mod_cast positive)]
  exact_mod_cast (fdiv_lt_iff positive).mp (lt_add_one (a.fdiv c))

theorem Fixed.mulDown_nonneg {a b : Int} (unsigned : 0 ≤ a) (rate : 0 ≤ b) : 0 ≤ Fixed.mulDown a b :=
  Int.fdiv_nonneg (mul_nonneg unsigned rate) Fixed.one_pos.le

theorem Fixed.mulUp_nonneg {a b : Int} (unsigned : 0 ≤ a) (rate : 0 ≤ b) : 0 ≤ Fixed.mulUp a b := by
  have product := mul_nonneg unsigned rate
  unfold Fixed.mulUp
  split
  · exact le_refl 0
  · have := Int.fdiv_nonneg (show 0 ≤ a * b - 1 by omega) Fixed.one_pos.le
    omega

theorem Fixed.le_mulDown_iff {a b c : Int} : c ≤ Fixed.mulDown a b ↔ c * Fixed.one ≤ a * b :=
  le_fdiv_iff Fixed.one_pos

/-! Zero is set apart wherever a result is rounded up, but it is no exception. -/

theorem raised_zero {b : Int} (positive : 0 < b) : (0 - 1 : Int).fdiv b + 1 = 0 :=
  eq_of_forall_ge_iff fun c => by rw [raised_le_iff positive, mul_nonneg_iff_of_pos_right positive]

theorem Fixed.mulUp_eq (a b : Int) : Fixed.mulUp a b = (a * b - 1).fdiv Fixed.one + 1 := by
  unfold Fixed.mulUp
  split
  · rename_i zero
    rw [zero, raised_zero Fixed.one_pos]
  · rfl

theorem Fixed.divDown_eq {b : Int} (a : Int) (nonzero : b ≠ 0) :
    Fixed.divDown a b = .ok (a.fdiv b) :=
  if_neg nonzero

theorem Fixed.divUp_eq {b : Int} (a : Int) (positive : 0 < b) :
    Fixed.divUp a b = .ok ((a - 1).fdiv b + 1) := by
  rw [Fixed.divUp, if_neg positive.ne']
  split
  · rename_i zero
    rw [zero, raised_zero positive]
  · rfl

theorem Fixed.divDownFixed_eq {b : Int} (a : Int) (nonzero : b ≠ 0) :
    Fixed.divDownFixed a b = .ok ((a * Fixed.one).fdiv b) := by
  rw [Fixed.divDownFixed, if_neg nonzero]
  split
  · rename_i zero
    rw [zero, zero_mul, Int.zero_fdiv]
  · rfl

theorem Fixed.divUpFixed_eq {b : Int} (a : Int) (positive : 0 < b) :
    Fixed.divUpFixed a b = .ok ((a * Fixed.one - 1).fdiv b + 1) := by
  rw [Fixed.divUpFixed, if_neg positive.ne']
  split
  · rename_i zero
    rw [zero, zero_mul, raised_zero positive]
  · rfl

/-- A product rounded up is the least integer at or above it, whatever its sign. -/
theorem Fixed.mulUp_le_iff {a b c : Int} : Fixed.mulUp a b ≤ c ↔ a * b ≤ c * Fixed.one := by
  rw [Fixed.mulUp_eq]
  exact raised_le_iff Fixed.one_pos

theorem Fixed.mulUp_le {a b : Int} (unsigned : 0 ≤ a) (rate : b ≤ Fixed.one) :
    Fixed.mulUp a b ≤ a :=
  Fixed.mulUp_le_iff.mpr (mul_le_mul_of_nonneg_left rate unsigned)

theorem Fixed.mulUp_mono {a b c : Int} (below : a ≤ b) (rate : 0 ≤ c) :
    Fixed.mulUp a c ≤ Fixed.mulUp b c :=
  Fixed.mulUp_le_iff.mpr ((mul_le_mul_of_nonneg_right below rate).trans (Fixed.mulUp_le_iff.mp le_rfl))

/-- What is left of an amount by a share rounded down is the rest of it rounded up. -/
theorem Fixed.sub_mulDown_complement (a rate : Int) :
    a - Fixed.mulDown a (Fixed.one - rate) = Fixed.mulUp a rate := by
  apply le_antisymm
  · have covered := Fixed.mulUp_le_iff.mp (le_refl (Fixed.mulUp a rate))
    rw [sub_le_comm, Fixed.le_mulDown_iff]
    linarith
  · have share := Fixed.le_mulDown_iff.mp (le_refl (Fixed.mulDown a (Fixed.one - rate)))
    rw [Fixed.mulUp_le_iff]
    linarith

/-- Two quotients together are not above the quotient of the sum. -/
theorem fdiv_add_fdiv_le {a b c : Int} (positive : 0 < c) :
    a.fdiv c + b.fdiv c ≤ (a + b).fdiv c := by
  have first := (le_fdiv_iff positive).mp (le_refl (a.fdiv c))
  have second := (le_fdiv_iff positive).mp (le_refl (b.fdiv c))
  rw [le_fdiv_iff positive, add_mul]
  exact add_le_add first second

theorem total_eq_sum (amounts : List Int) : total amounts = amounts.sum := by
  rw [total, ← List.sum_eq_foldl]

/-- A total is one amount and the total of the others. -/
theorem total_eq_add {amounts : List Int} {index : Nat} (bound : index < amounts.length) :
    total amounts = amounts[index] + total (amounts.eraseIdx index) := by
  rw [total_eq_sum, total_eq_sum, List.CommMonoid.add_sum_eraseIdx bound]

theorem total_nonneg {amounts : List Int} (nonneg : ∀ amount ∈ amounts, 0 ≤ amount) :
    0 ≤ total amounts := by
  rw [total_eq_sum]
  exact List.sum_nonneg nonneg

theorem total_pos {amounts : List Int} (some : amounts ≠ [])
    (positive : ∀ amount ∈ amounts, 0 < amount) : 0 < total amounts := by
  rw [total_eq_sum]
  exact List.sum_pos amounts positive some

theorem length_le_total {amounts : List Int} (positive : ∀ amount ∈ amounts, 0 < amount) :
    (amounts.length : Int) ≤ total amounts := by
  rw [total_eq_sum]
  simpa using List.card_nsmul_le_sum amounts 1 positive

/-- What holds of the entries of a list and of a new one holds of them with the new one among them. -/
theorem forall_set {Holds : Int → Prop} {values : List Int} {index : Nat} {value : Int}
    (each : ∀ x ∈ values, Holds x) (entry : Holds value) : ∀ x ∈ values.set index value, Holds x := by
  intro x member
  rcases List.mem_or_eq_of_mem_set member with kept | rfl
  · exact each x kept
  · exact entry

theorem absDiff_nonneg (a b : Int) : 0 ≤ absDiff a b := by
  unfold absDiff
  split <;> omega

theorem absDiff_le_iff {a b k : Int} : absDiff a b ≤ k ↔ a ≤ b + k ∧ b ≤ a + k := by
  unfold absDiff
  split <;> omega

theorem withinOne_iff {a b : Int} : withinOne a b = true ↔ a ≤ b + 1 ∧ b ≤ a + 1 := by
  rw [withinOne, decide_eq_true_iff, absDiff]
  split <;> omega

theorem near_of_withinOne {a b : Int} (near : withinOne a b = true) : a ≤ b + 1 ∧ b ≤ a + 1 :=
  withinOne_iff.mp near

end Amm
