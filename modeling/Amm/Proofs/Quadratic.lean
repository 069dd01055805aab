import Mathlib.Algebra.Order.Archimedean.Real.Basic
import Mathlib.Algebra.Order.Floor.Ring
import Mathlib.Analysis.Real.Sqrt
import Mathlib.Tactic.Linarith
import Mathlib.Tactic.Ring

/-!
The quadratic that a stable invariant leaves for one missing balance, over the real numbers. Its constant
is not negative, so it has one root that is not below any other, and a balance that is not negative is on
the side of the root that its value says. An integer is told to be near the root by the values at its
neighbours alone.
-/

namespace Amm

/-- The greater root of `y ^ 2 + slope * y = constant`. -/
noncomputable def greaterRoot (slope constant : ℝ) : ℝ :=
  (√(slope * slope + 4 * constant) - slope) / 2

section
variable (slope : ℝ) {constant y : ℝ} (unsigned : 0 ≤ constant)
include unsigned

theorem abs_le_sqrt_discriminant : |slope| ≤ √(slope * slope + 4 * constant) := by
  refine Real.abs_le_sqrt ?_
  linarith [sq slope]

theorem greaterRoot_nonneg : 0 ≤ greaterRoot slope constant := by
  have wide := (le_abs_self slope).trans (abs_le_sqrt_discriminant slope unsigned)
  unfold greaterRoot
  linarith

theorem greaterRoot_add_slope_nonneg : 0 ≤ greaterRoot slope constant + slope := by
  have wide := (neg_abs_le slope).trans' (neg_le_neg (abs_le_sqrt_discriminant slope unsigned))
  unfold greaterRoot
  linarith

theorem greaterRoot_eq :
    greaterRoot slope constant * greaterRoot slope constant + slope * greaterRoot slope constant =
      constant := by
  have square := Real.mul_self_sqrt (show 0 ≤ slope * slope + 4 * constant by
    linarith [mul_self_nonneg slope])
  unfold greaterRoot
  linarith

/-- What the quadratic exceeds its constant by, as a product. -/
theorem quadratic_sub_eq :
    y * y + slope * y - constant = (y - greaterRoot slope constant) *
      (y + (greaterRoot slope constant + slope)) := by
  have root := greaterRoot_eq slope unsigned
  linarith

variable {slope}

/-- A value that is not negative lies above the quadratic exactly beyond the root. -/
theorem lt_quadratic_iff (nonneg : 0 ≤ y) :
    constant < y * y + slope * y ↔ greaterRoot slope constant < y := by
  have other := greaterRoot_add_slope_nonneg slope unsigned
  have root := greaterRoot_nonneg slope unsigned
  rw [← sub_pos, quadratic_sub_eq slope unsigned, ← sub_pos (b := greaterRoot slope constant)]
  constructor
  · exact fun positive => pos_of_mul_pos_left positive (by linarith)
  · exact fun beyond => mul_pos beyond (by linarith)

theorem quadratic_le_iff (nonneg : 0 ≤ y) :
    y * y + slope * y ≤ constant ↔ y ≤ greaterRoot slope constant := by
  rw [← not_lt, lt_quadratic_iff unsigned nonneg, not_lt]

/-- No other root is greater. -/
theorem isGreatest_greaterRoot :
    IsGreatest {y : ℝ | y * y + slope * y = constant} (greaterRoot slope constant) := by
  refine ⟨greaterRoot_eq _ unsigned, fun y root => ?_⟩
  rcases le_total 0 y with nonneg | negative
  · exact (quadratic_le_iff unsigned nonneg).mp (le_of_eq root)
  · exact negative.trans (greaterRoot_nonneg _ unsigned)

end

section
variable (slope : ℝ) {constant y : ℝ} (positive : 0 < constant)
include positive

theorem greaterRoot_pos : 0 < greaterRoot slope constant := by
  refine (greaterRoot_nonneg _ positive.le).lt_of_ne fun zero => ?_
  have root := greaterRoot_eq slope positive.le
  rw [← zero] at root
  linarith

variable {slope}

/-- With a positive constant there is only one root that is not negative. -/
theorem le_quadratic_iff (nonneg : 0 ≤ y) :
    constant ≤ y * y + slope * y ↔ greaterRoot slope constant ≤ y := by
  have root := greaterRoot_pos slope positive
  have other : 0 < greaterRoot slope constant + slope := by
    refine (greaterRoot_add_slope_nonneg slope positive.le).lt_of_ne fun zero => ?_
    have product := greaterRoot_eq slope positive.le
    rw [← add_mul, ← zero, zero_mul] at product
    exact positive.ne product
  rw [← sub_nonneg, quadratic_sub_eq slope positive.le, ← sub_nonneg (b := greaterRoot slope constant)]
  constructor
  · exact fun product => nonneg_of_mul_nonneg_left product (by linarith)
  · exact fun beyond => mul_nonneg beyond (by linarith)

end

/-- An integer whose successor is above the quadratic and whose predecessor is not. -/
structure NearRoot (slope constant y : Int) : Prop where
  nonneg : 0 ≤ y
  next : constant < (y + 1) * (y + 1) + slope * (y + 1)
  previous : y = 0 ∨ (y - 1) * (y - 1) + slope * (y - 1) ≤ constant

theorem NearRoot.floor {slope constant y : Int} (near : NearRoot slope constant y)
    (unsigned : 0 ≤ constant) :
    y = ⌊greaterRoot slope constant⌋ ∨ y = ⌊greaterRoot slope constant⌋ + 1 := by
  have start := near.nonneg
  have cast : (0 : ℝ) ≤ constant := by exact_mod_cast unsigned
  have above : greaterRoot slope constant < ((y + 1 : Int) : ℝ) := by
    rw [← lt_quadratic_iff cast (by exact_mod_cast (show 0 ≤ y + 1 by omega))]
    exact_mod_cast near.next
  have below : ((y - 1 : Int) : ℝ) ≤ greaterRoot slope constant := by
    rcases le_or_gt y 0 with none | some
    · have negative : ((y - 1 : Int) : ℝ) ≤ 0 := by exact_mod_cast (show y - 1 ≤ 0 by omega)
      exact negative.trans (greaterRoot_nonneg _ cast)
    · rw [← quadratic_le_iff cast (by exact_mod_cast (show 0 ≤ y - 1 by omega))]
      exact_mod_cast near.previous.resolve_left some.ne'
  have upper := Int.floor_lt.mpr above
  have lower := Int.le_floor.mpr below
  omega

end Amm
