import Amm.Proofs.Quadratic
import Amm.Proofs.Rounding

/-!
Newton's method for a quadratic, with every step rounded down. No step ends below the root. From above
the root a step at least halves the distance to it, and once the square of the distance is small against
the slope a step ends at the root or one unit above. So the distance decides how many steps are made.
-/

namespace Amm

/-- The point to which the tangent at `y` leads, rounded down. -/
def tangentStep (slope constant y : Int) : Int :=
  (y * y + constant).fdiv (y * 2 + slope)

/-- The root of a quadratic, rounded down. -/
structure FloorRoot (slope constant root : Int) : Prop where
  nonneg : 0 ≤ root
  reached : root * root + slope * root ≤ constant
  next : constant < (root + 1) * (root + 1) + slope * (root + 1)

theorem exists_floorRoot (slope : Int) {constant : Int} (unsigned : 0 ≤ constant) :
    ∃ root, FloorRoot slope constant root := by
  have cast : (0 : ℝ) ≤ constant := by exact_mod_cast unsigned
  have nonneg : 0 ≤ ⌊greaterRoot slope constant⌋ := Int.floor_nonneg.mpr (greaterRoot_nonneg _ cast)
  refine ⟨⌊greaterRoot slope constant⌋, nonneg, ?_, ?_⟩
  · have below := (quadratic_le_iff cast (by exact_mod_cast nonneg)).mpr
      (Int.floor_le (greaterRoot slope constant))
    exact_mod_cast below
  · have above := (lt_quadratic_iff cast (by positivity)).mpr
      (Int.lt_floor_add_one (greaterRoot slope constant))
    exact_mod_cast above

namespace FloorRoot

variable {slope constant root y : Int} (floor : FloorRoot slope constant root)
include floor

/-- At the root the quadratic does not fall any more. -/
theorem turned : 0 ≤ root * 2 + slope := by
  have reached := floor.reached
  have next := floor.next
  have rise : 0 < root * 2 + slope + 1 := by linarith
  omega

theorem le_tangentStep (positive : 0 < y * 2 + slope) : root ≤ tangentStep slope constant y := by
  rw [tangentStep, le_fdiv_iff positive]
  have apart := mul_self_nonneg (y - root)
  linarith [floor.reached]

theorem halves (beyond : root < y) : 2 * (tangentStep slope constant y - root) ≤ y - root := by
  have turned := floor.turned
  have positive : 0 < y * 2 + slope := by omega
  have floored : tangentStep slope constant y * (y * 2 + slope) ≤ y * y + constant :=
    (le_fdiv_iff positive).mp le_rfl
  by_contra far
  have more : y + root + 1 ≤ 2 * tangentStep slope constant y := by omega
  have scaled := mul_le_mul_of_nonneg_right more positive.le
  have apart : 0 ≤ (y - (root + 1)) * ((root + 1) * 2 + slope) := mul_nonneg (by omega) (by omega)
  linarith [floor.next]

theorem tangentStep_le (positive : 0 < y * 2 + slope)
    (near : (y - (root + 1)) * (y - (root + 1)) ≤ y * 2 + slope) :
    tangentStep slope constant y ≤ root + 1 := by
  rw [tangentStep, fdiv_le_iff positive]
  linarith [floor.next]

/-- From the root a step goes one unit up at most. -/
theorem tangentStep_root_le (positive : 0 < root * 2 + slope) :
    tangentStep slope constant root ≤ root + 1 :=
  floor.tangentStep_le positive (by linarith)

/-- The tangent is flat where a step ends only if the step was from one to nothing. -/
theorem tangentStep_turned (unsigned : 0 ≤ constant) (positive : 0 < y * 2 + slope) :
    0 < tangentStep slope constant y * 2 + slope ∨ tangentStep slope constant y = 0 ∧ y = 1 := by
  have turned := floor.turned
  have above := floor.le_tangentStep positive
  rcases (show 0 < tangentStep slope constant y * 2 + slope ∨
    tangentStep slope constant y * 2 + slope = 0 by omega) with rising | flat
  · exact .inl rising
  right
  have same : tangentStep slope constant y = root := by omega
  have doubled : slope = -(root * 2) := by omega
  have next := floor.next
  have nonneg := floor.nonneg
  have zero : root = 0 := by
    rw [doubled] at next
    by_contra some
    have square := mul_nonneg (show 0 ≤ root + 1 by omega) (show 0 ≤ root - 1 by omega)
    linarith
  have small : y * y + constant < 1 * (y * 2 + slope) := by
    rw [← fdiv_lt_iff positive]
    change tangentStep slope constant y < 1
    omega
  refine ⟨by omega, ?_⟩
  obtain rfl : slope = 0 := by omega
  have below : y < 2 := lt_of_mul_lt_mul_left (show y * y < y * 2 by linarith) (by omega)
  omega

end FloorRoot

end Amm
