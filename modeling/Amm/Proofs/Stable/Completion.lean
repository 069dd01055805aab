import Amm.Proofs.Stable.Accuracy
import Mathlib.Algebra.BigOperators.Group.List.Basic
import Mathlib.Data.List.InsertIdx

/-!
How far the balance that a stable pool solves for is from the equation. The quadratic is rounded in
favour of the pool in both coefficients, but for the product of the other balances, which is rounded
down after every division.
-/

namespace Amm
namespace Stable
namespace Curve

/-- The curve without the offset in its divisors, which is the one that the solver uses. -/
def plain (curve : Curve) : Curve :=
  { curve with offset := false }

@[simp] theorem plain_divisor (curve : Curve) (n x : Int) : curve.plain.divisor n x = x * n := by
  simp [plain, divisor]

variable {curve : Curve} {n d y z : Int} {others xp : List Int}

/-- Every value above the balance that is solved for lies above the quadratic. -/
theorem lt_quadratic {b c : Int} (square : 0 ≤ c) (linear : 0 ≤ b) (start : 0 ≤ d)
    (solved : Newton.settle (balanceStep b c d) .yDoesNotConverge steps d = .ok y) (above : y < z) :
    c < z * z + (b - d) * z := by
  obtain ⟨previous, ⟨nonneg, turned⟩, step, -⟩ := Newton.settle_ends
    (fun y => 0 ≤ y ∧ d - b ≤ y)
    (fun _ _ holds step => (balanceStep_above holds.1 holds.2 square step).2) ⟨start, by omega⟩
    solved
  obtain ⟨positive, -, -⟩ := balanceStep_above nonneg turned square step
  obtain ⟨-, rfl⟩ := Priced.quotient_eq_ok.mp step
  have passed : previous * previous + c < z * (previous * 2 + b - d) :=
    (fdiv_lt_iff positive).mp above
  have apart : 0 ≤ (z - previous) * (z - previous) := mul_self_nonneg _
  linarith

/-- The balance that is solved for is above the quadratic by at most one unit of its constant. -/
theorem quadratic_le {b c : Int} (square : 0 ≤ c) (linear : 0 ≤ b) (start : 0 ≤ d)
    (solved : Newton.settle (balanceStep b c d) .yDoesNotConverge steps d = .ok y) :
    y * y + (b - d) * y ≤ c + 1 := by
  obtain ⟨previous, ⟨nonneg, turned⟩, step, near⟩ := Newton.settle_ends
    (fun y => 0 ≤ y ∧ d - b ≤ y)
    (fun _ _ holds step => (balanceStep_above holds.1 holds.2 square step).2) ⟨start, by omega⟩
    solved
  obtain ⟨positive, -, -⟩ := balanceStep_above nonneg turned square step
  obtain ⟨-, value⟩ := Priced.quotient_eq_ok.mp step
  have stepped : y * (previous * 2 + b - d) ≤ previous * previous + c :=
    (le_fdiv_iff positive).mp value.ge
  have apart : (y - previous) * (y - previous) ≤ 1 := by
    obtain ⟨above, below⟩ := near_of_withinOne near
    obtain gap | gap | gap : y - previous = -1 ∨ y - previous = 0 ∨ y - previous = 1 := by omega
    all_goals rw [gap]; decide
  linarith

/-- A balance above the one that is solved for completes the others to a pool in which the equation
allows the invariant, but for what the product of the others has lost. -/
theorem level_lt_of_solve (admissible : curve.Admissible n) (count : 0 < n) (start : 0 ≤ d)
    (unsigned : ∀ x ∈ others, 0 ≤ x) (solved : curve.solve n d others = .ok y) (above : y < z)
    (positive : 0 < z) :
    (d : ℚ) ^ (others.length + 2) / ((z * n * (others.map (· * n)).prod : Int) : ℚ) +
        (curve.amp * n / curve.precision - 1) * d <
      curve.amp * n / curve.precision * (total others + z : Int) +
        drift (· * n) d 0 others * (d / (z * n : Int)) := by
  obtain ⟨⟨b, c⟩, computed, settled⟩ := Priced.bind_eq_ok.mp solved
  obtain ⟨linear, square, -⟩ := coefficients_nonneg admissible count.le start unsigned computed
  have quadratic := lt_quadratic square linear start settled above
  simp only [coefficients, Priced.bind_eq_ok, Priced.require_eq_ok, Except.ok.injEq,
    Prod.mk.injEq] at computed
  obtain ⟨_, -, term, multiplied, rfl, rfl⟩ := computed
  rw [remainingTerm_eq count.ne'] at multiplied
  have divisors := dividedTerm_pos (fun x member => mul_nonneg (unsigned x member) count.le)
    multiplied
  have close := le_dividedTerm_add_drift start divisors (show (d : ℚ) ≤ d + 0 by rw [add_zero])
    multiplied
  have precision : (0 : Int) < curve.precision := admissible.precision
  have ampTotal := admissible.ampTotal_pos
  have unit : (0 : ℚ) < curve.precision := by exact_mod_cast precision
  have tokens : (0 : ℚ) < n := by exact_mod_cast count
  have left : (0 : ℚ) < z := by exact_mod_cast positive
  have invariant : (0 : ℚ) ≤ d := by exact_mod_cast start
  obtain ⟨leverage, scale, weight⟩ : ∃ leverage : ℚ,
      curve.amp * n = leverage * curve.precision ∧ 0 < leverage := by
    refine ⟨curve.amp * n / curve.precision, by field_simp, div_pos ?_ unit⟩
    exact_mod_cast ampTotal
  have constant := div_lt_cast_fdiv_add_one (a := term * d * curve.precision)
    (mul_pos ampTotal count)
  have slack := cast_fdiv_le (a := d * curve.precision) ampTotal
  generalize drift (· * n) d 0 others = loss at close ⊢
  generalize (others.map (· * n)).prod = product at close ⊢
  push_cast at constant slack ⊢
  rw [scale, mul_div_cancel_right₀ _ unit.ne']
  rw [scale, mul_right_comm leverage, mul_div_mul_right _ _ unit.ne'] at constant
  rw [scale, mul_div_mul_right _ _ unit.ne'] at slack
  -- Both coefficients are rounded in favour of the pool.
  have rounded : term * d / (leverage * n) < (z * z + (total others + d / leverage - d) * z : ℚ) := by
    have cast : (((term * d * curve.precision).fdiv (curve.amp * n * n) : Int) : ℚ) + 1 ≤
        z * z + (total others + ((d * curve.precision).fdiv (curve.amp * n) : Int) - d) * z := by
      exact_mod_cast quadratic
    linarith [mul_le_mul_of_nonneg_right slack left.le]
  have multiplied := mul_lt_mul_of_pos_right rounded (div_pos weight left)
  have lost := mul_le_mul_of_nonneg_right close (show 0 ≤ d / (z * n : ℚ) by positivity)
  calc
    _ = d * (d ^ others.length / product) * (d / (z * n : ℚ)) + (leverage - 1) * d := by
      ring
    _ ≤ (term + loss) * (d / (z * n : ℚ)) + (leverage - 1) * d := by linarith
    _ = term * d / (leverage * n) * (leverage / z) + (leverage - 1) * d + loss * (d / (z * n)) := by
      field_simp
      ring
    _ < (z * z + (total others + d / leverage - d) * z) * (leverage / z) + (leverage - 1) * d +
          loss * (d / (z * n)) := by linarith
    _ = _ := by
      field_simp
      ring

/-- The same for all the balances of a pool, one of which is above the balance that is solved for. -/
theorem plain_level_lt {j : Nat} (admissible : curve.Admissible xp.length) (bound : j < xp.length)
    (start : 0 ≤ d) (unsigned : ∀ x ∈ xp.eraseIdx j, 0 ≤ x)
    (solved : curve.solve xp.length d (xp.eraseIdx j) = .ok y) (above : y < xp[j])
    (positive : 0 < xp[j]) :
    (curve.plain.equation xp).level d <
      (curve.plain.equation xp).leverage * (total xp : Int) +
        drift (· * xp.length) d 0 (xp.eraseIdx j) * (d / (xp[j] * xp.length : Int)) := by
  have count : (0 : Int) < xp.length := by omega
  have level := level_lt_of_solve admissible count start unsigned solved above positive
  have product : xp[j] * xp.length * ((xp.eraseIdx j).map (· * (xp.length : Int))).prod =
      (xp.map (curve.plain.divisor xp.length)).prod := by
    rw [List.map_congr_left fun x _ => curve.plain_divisor xp.length x,
      ← List.CommMonoid.mul_prod_eraseIdx (l := xp.map (· * (xp.length : Int)))
        (by rwa [List.length_map]), List.eraseIdx_map, List.getElem_map]
  have sum : total (xp.eraseIdx j) + xp[j] = total xp := by
    rw [total_eq_add bound, add_comm]
  have length : (xp.eraseIdx j).length + 2 = xp.length + 1 := by
    rw [List.length_eraseIdx_of_lt bound]
    omega
  rw [product, sum, length] at level
  exact level

end Curve
end Stable
end Amm
