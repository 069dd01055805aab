import Mathlib.Algebra.BigOperators.Group.List.Basic
import Mathlib.Algebra.Order.BigOperators.Group.List
import Mathlib.Algebra.Order.Field.Rat
import Mathlib.Algebra.Order.Ring.Pow
import Mathlib.Data.Rat.Floor
import Mathlib.Tactic.FieldSimp
import Mathlib.Tactic.GCongr
import Mathlib.Tactic.Linarith
import Mathlib.Tactic.Ring

/-!
The equation of a stable invariant over the rational numbers, before anything is rounded. Its left
side is convex in the invariant, so it lies above its tangents; the bounds on the integer solvers come
from this fact alone.
-/

namespace Amm

/-- The equation `d ^ (n + 1) / divisor + (leverage - 1) * d = leverage * sum` for the invariant `d` of
`n` balances. The divisor is `n ^ n` times the product of the balances. -/
structure Equation where
  count : Nat
  divisor : ℚ
  leverage : ℚ

namespace Equation

/-- The left side of the equation. -/
def level (equation : Equation) (d : ℚ) : ℚ :=
  d ^ (equation.count + 1) / equation.divisor + (equation.leverage - 1) * d

/-- By how much the left side grows with one unit of the invariant. -/
def slope (equation : Equation) (d : ℚ) : ℚ :=
  equation.leverage - 1 + (equation.count + 1) * (d ^ equation.count / equation.divisor)

structure Sound (equation : Equation) : Prop where
  divisor : 0 < equation.divisor
  leverage : 1 ≤ equation.leverage

variable {equation : Equation} {d e : ℚ}

theorem level_eq (equation : Equation) (d : ℚ) :
    equation.level d = d ^ equation.count / equation.divisor * d + (equation.leverage - 1) * d := by
  rw [level, pow_succ, mul_div_right_comm]

theorem leverage_mul_le_level (sound : equation.Sound) (nonneg : 0 ≤ d) :
    (equation.leverage - 1) * d ≤ equation.level d := by
  have term : 0 ≤ d ^ (equation.count + 1) / equation.divisor :=
    div_nonneg (pow_nonneg nonneg _) sound.divisor.le
  unfold level
  linarith

/-- A greater divisor lowers the left side. -/
theorem level_le_level {other : Equation} (sound : equation.Sound)
    (count : other.count = equation.count) (leverage : other.leverage = equation.leverage)
    (divisor : equation.divisor ≤ other.divisor) (nonneg : 0 ≤ d) :
    other.level d ≤ equation.level d := by
  have positive := sound.divisor
  unfold level
  rw [count, leverage]
  gcongr

/-- The left side lies above its tangent at `e`. -/
theorem tangent_le_level (sound : equation.Sound) (start : 0 ≤ e) (nonneg : 0 ≤ d) :
    equation.level e + equation.slope e * (d - e) ≤ equation.level d := by
  have powers : e ^ (equation.count + 1) +
      (equation.count + 1 : Nat) * e ^ equation.count * (d - e) ≤ d ^ (equation.count + 1) := by
    simpa using pow_add_mul_le_add_pow start (show 0 ≤ 2 * e + (d - e) by linarith)
      (equation.count + 1)
  have divided := div_le_div_of_nonneg_right powers sound.divisor.le
  rw [add_div] at divided
  push_cast at divided
  unfold level slope
  calc
    _ = e ^ (equation.count + 1) / equation.divisor +
          (equation.count + 1) * e ^ equation.count * (d - e) / equation.divisor +
          (equation.leverage - 1) * d := by ring
    _ ≤ d ^ (equation.count + 1) / equation.divisor + (equation.leverage - 1) * d := by gcongr

theorem level_mono (sound : equation.Sound) (start : 0 ≤ e) (above : e ≤ d) :
    equation.level e ≤ equation.level d := by
  have positive := sound.divisor
  have damped := sub_nonneg.mpr sound.leverage
  unfold level
  gcongr

theorem slope_mono (sound : equation.Sound) (start : 0 ≤ e) (above : e ≤ d) :
    equation.slope e ≤ equation.slope d := by
  have := sound.divisor
  unfold slope
  gcongr

theorem slope_nonneg (sound : equation.Sound) (start : 0 ≤ d) : 0 ≤ equation.slope d := by
  have := sound.divisor
  have := sub_nonneg.mpr sound.leverage
  unfold slope
  positivity

theorem slope_pos (sound : equation.Sound) (leveraged : 1 < equation.leverage) (start : 0 ≤ d) :
    0 < equation.slope d := by
  have := sound.divisor
  have := sub_pos.mpr leveraged
  unfold slope
  positivity

theorem level_lt_level (sound : equation.Sound) (leveraged : 1 < equation.leverage) (start : 0 ≤ e)
    (above : e < d) : equation.level e < equation.level d := by
  have tangent := tangent_le_level sound start (start.trans above.le)
  have rise := mul_pos (slope_pos sound leveraged start) (sub_pos.mpr above)
  linarith

/-- Over one unit the slope falls by little. -/
theorem slope_sub_slope_le (sound : equation.Sound) (unit : 1 ≤ d) :
    d * (equation.slope d - equation.slope (d - 1)) ≤
      (equation.count + 1) * (equation.count * (d ^ equation.count / equation.divisor)) := by
  have nonneg : 0 ≤ d := by linarith
  have powers := mul_le_mul_of_nonneg_left
    (pow_add_mul_le_add_pow nonneg (show 0 ≤ 2 * d + -1 by linarith) equation.count) nonneg
  have whole : d * (equation.count * d ^ (equation.count - 1)) =
      equation.count * d ^ equation.count := by
    rcases equation.count.eq_zero_or_pos with zero | positive
    · simp [zero]
    · rw [mul_left_comm, mul_pow_sub_one positive.ne']
  have fallen : d * (d ^ equation.count - (d - 1) ^ equation.count) ≤
      equation.count * d ^ equation.count := by
    rw [← sub_eq_add_neg] at powers
    linarith
  have divided := div_le_div_of_nonneg_right fallen sound.divisor.le
  have factor : (0 : ℚ) ≤ equation.count + 1 := by positivity
  unfold slope
  calc
    _ = (equation.count + 1) *
          (d * (d ^ equation.count - (d - 1) ^ equation.count) / equation.divisor) := by ring
    _ ≤ (equation.count + 1) * (equation.count * d ^ equation.count / equation.divisor) :=
      mul_le_mul_of_nonneg_left divided factor
    _ = _ := by rw [mul_div_assoc]

/-- A step of the iteration whose product term is rounded down does not pass below a value at which
the left side is still within the right side. -/
theorem le_step {product right : ℚ} (sound : equation.Sound) (start : 0 ≤ e) (nonneg : 0 ≤ d)
    (within : equation.level e ≤ right) (unsigned : 0 ≤ product)
    (rounded : product ≤ d ^ (equation.count + 1) / equation.divisor) :
    e * ((equation.leverage - 1) * d + product * (equation.count + 1)) ≤
      (right + product * equation.count) * d := by
  rcases le_total 0 ((equation.count + 1) * e - equation.count * d) with turned | short
  · have tangent := (tangent_le_level sound nonneg start).trans within
    have scaled := mul_le_mul_of_nonneg_right tangent nonneg
    have part := mul_le_mul_of_nonneg_right rounded turned
    unfold level slope at scaled
    rw [pow_succ, mul_div_right_comm] at scaled part
    linarith
  · have damped := (leverage_mul_le_level sound start).trans within
    have scaled := mul_le_mul_of_nonneg_right damped nonneg
    have part := mul_nonpos_of_nonneg_of_nonpos unsigned short
    linarith

end Equation

/-- The product of balances is at most that of as many equal ones with the same sum. -/
theorem prod_le_mean_pow {balances : List ℚ} (nonneg : ∀ x ∈ balances, 0 ≤ x) :
    balances.prod ≤ (balances.sum / balances.length) ^ balances.length := by
  induction balances with
  | nil => simp
  | cons x balances ih =>
      have others : ∀ y ∈ balances, 0 ≤ y := fun y member => nonneg y (by simp [member])
      have first : 0 ≤ x := nonneg x (by simp)
      have count : (0 : ℚ) < balances.length + 1 := by positivity
      have sum : 0 ≤ balances.sum := List.sum_nonneg others
      obtain ⟨mean, start, whole, same⟩ : ∃ mean, 0 ≤ mean ∧
          balances.length * mean = balances.sum ∧ mean = balances.sum / balances.length := by
        refine ⟨_, div_nonneg sum (Nat.cast_nonneg _), ?_, rfl⟩
        cases balances with
        | nil => simp
        | cons y balances => exact mul_div_cancel₀ _ (Nat.cast_ne_zero.mpr (by simp))
      have grown : (balances.length + 1) * ((x + balances.sum) / (balances.length + 1) - mean) =
          x - mean := by
        rw [mul_sub, mul_div_cancel₀ _ count.ne', add_mul, whole]
        ring
      calc
        (x :: balances).prod ≤ x * mean ^ balances.length := by
          rw [List.prod_cons, same]
          exact mul_le_mul_of_nonneg_left (ih others) first
        _ = mean ^ (balances.length + 1) + (balances.length + 1 : Nat) * mean ^ balances.length *
              ((x + balances.sum) / (balances.length + 1) - mean) := by
          push_cast
          rw [mul_right_comm, grown]
          ring
        _ ≤ (mean + ((x + balances.sum) / (balances.length + 1) - mean)) ^
              (balances.length + 1) := by
          refine pow_add_mul_le_add_pow start ?_ _
          rw [two_mul, add_assoc, add_sub_cancel]
          positivity
        _ = ((x :: balances).sum / (x :: balances).length) ^ (x :: balances).length := by
          rw [add_sub_cancel, List.sum_cons, List.length_cons, Nat.cast_add, Nat.cast_one]

/-- The same for integers, each multiplied by their number. -/
theorem prod_mul_length_le {balances : List Int} (nonneg : ∀ x ∈ balances, 0 ≤ x) :
    (balances.map (· * (balances.length : Int))).prod ≤ balances.sum ^ balances.length := by
  have cast : ∀ y ∈ balances.map (Int.castRingHom ℚ), 0 ≤ y := fun y member => by
    obtain ⟨x, held, rfl⟩ := List.mem_map.mp member
    exact Int.cast_nonneg (nonneg x held)
  have mean := prod_le_mean_pow cast
  rw [← map_list_prod, ← map_list_sum, List.length_map, eq_intCast, eq_intCast] at mean
  rw [List.prod_map_mul, List.map_id', List.map_const', List.prod_replicate]
  rcases balances.length.eq_zero_or_pos with none | some
  · rw [List.length_eq_zero_iff.mp none]
    simp
  · have count : (0 : ℚ) < balances.length := by exact_mod_cast some
    rw [div_pow, le_div_iff₀ (pow_pos count _)] at mean
    exact_mod_cast mean

end Amm
