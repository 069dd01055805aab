import Amm.Proofs.Rounding
import Mathlib.Data.Rat.Floor

/-!
The two directions of fixed-point arithmetic. A result that is rounded down is the floor of the exact
quotient, and one that is rounded up is its ceiling, although no ceiling is ever divided for: the quotient
below `a` is raised by one. This is right for every sign of `a` as long as the divisor is positive. A
zero divisor is the only thing that fails.
-/

namespace Amm
namespace Fixed

/-- Two integers are the floor and the ceiling of `a / b`: the same one if `b` divides `a`, and else
neighbours. -/
structure Encloses (down up a b : Int) : Prop where
  floor : down = ⌊(a / b : ℚ)⌋
  ceil : up = ⌈(a / b : ℚ)⌉
  gap : up = down ∨ up = down + 1
  exact_iff : up = down ↔ b ∣ a

variable {a b c : Int}

theorem fdiv_eq_floor (positive : 0 < b) : a.fdiv b = ⌊(a / b : ℚ)⌋ :=
  (Int.floor_eq_iff.mpr ⟨cast_fdiv_le positive, div_lt_cast_fdiv_add_one positive⟩).symm

theorem raised_eq_ceil (positive : 0 < b) : (a - 1).fdiv b + 1 = ⌈(a / b : ℚ)⌉ := by
  have divisor : (0 : ℚ) < b := by exact_mod_cast positive
  refine eq_of_forall_ge_iff fun c => ?_
  rw [raised_le_iff positive, Int.ceil_le, div_le_iff₀ divisor]
  norm_cast

theorem encloses_fdiv (positive : 0 < b) : Encloses (a.fdiv b) ((a - 1).fdiv b + 1) a b := by
  have below : a.fdiv b * b ≤ a := (le_fdiv_iff positive).mp le_rfl
  have above : a < (a.fdiv b + 1) * b := (fdiv_lt_iff positive).mp (lt_add_one _)
  have covered : a ≤ ((a - 1).fdiv b + 1) * b := (raised_le_iff positive).mp le_rfl
  have raised : (a - 1).fdiv b + 1 ≤ a.fdiv b + 1 := (raised_le_iff positive).mpr above.le
  have lowered : a.fdiv b ≤ (a - 1).fdiv b + 1 :=
    le_of_mul_le_mul_right (below.trans covered) positive
  refine ⟨fdiv_eq_floor positive, raised_eq_ceil positive, by omega, fun same => ?_, fun divides => ?_⟩
  · rw [same] at covered
    exact Dvd.intro_left _ (le_antisymm below covered)
  · refine le_antisymm ((raised_le_iff positive).mpr ?_) lowered
    rw [Int.fdiv_mul_cancel divides]

/-- The operations that divide by what they are given. -/
def divisions : List (Int → Int → Except Error Int) :=
  [divDown, divUp, divDownFixed, divUpFixed]

section
variable {divide : Int → Int → Except Error Int} (divides : divide ∈ divisions)
include divides

theorem divide_zero (a : Int) : divide a 0 = .error .divisionByZero := by
  simp only [divisions, List.mem_cons, List.not_mem_nil, or_false] at divides
  rcases divides with rfl | rfl | rfl | rfl <;> rfl

/-- Also for a negative divisor there is a result, though not always the quotient. -/
theorem exists_divide (nonzero : b ≠ 0) : ∃ value, divide a b = .ok value := by
  simp only [divisions, List.mem_cons, List.not_mem_nil, or_false] at divides
  rcases divides with rfl | rfl | rfl | rfl
  · exact ⟨_, divDown_eq a nonzero⟩
  · by_cases zero : a = 0 <;> simp [divUp, nonzero, zero]
  · exact ⟨_, divDownFixed_eq a nonzero⟩
  · by_cases zero : a = 0 <;> simp [divUpFixed, nonzero, zero]

theorem divide_eq_error_iff {error : Error} :
    divide a b = .error error ↔ error = .divisionByZero ∧ b = 0 := by
  by_cases zero : b = 0
  · rw [zero, divide_zero divides, Except.error.injEq]
    exact ⟨fun same => ⟨same.symm, rfl⟩, fun ⟨same, _⟩ => same.symm⟩
  · obtain ⟨value, computed⟩ := exists_divide divides (a := a) zero
    simp [computed, zero]

end

/-- A product of two fixed-point numbers, a quotient of two integers and a quotient of two fixed-point
numbers, rounded down and up, are the floor and the ceiling of what they stand for, for operands of
every sign and positive divisors. A division fails exactly for a zero divisor, and in one way. -/
theorem roundings_enclose (a b : Int) :
    Encloses (mulDown a b) (mulUp a b) (a * b) one ∧
    (0 < b →
      (∃ down up, divDown a b = .ok down ∧ divUp a b = .ok up ∧ Encloses down up a b) ∧
      ∃ down up, divDownFixed a b = .ok down ∧ divUpFixed a b = .ok up ∧
        Encloses down up (a * one) b) ∧
    ∀ divide ∈ divisions, ∀ error,
      divide a b = .error error ↔ error = .divisionByZero ∧ b = 0 := by
  refine ⟨?_, fun positive => ⟨?_, ?_⟩, fun divide divides error => divide_eq_error_iff divides⟩
  · rw [mulUp_eq]
    exact encloses_fdiv one_pos
  · exact ⟨_, _, divDown_eq a positive.ne', divUp_eq a positive, encloses_fdiv positive⟩
  · exact ⟨_, _, divDownFixed_eq a positive.ne', divUpFixed_eq a positive, encloses_fdiv positive⟩

/-- Minus seven halves, and minus seven fixed-point units over two of them. -/
theorem roundings_enclose_negative :
    (0 : Int) < 2 ∧ Encloses (-1) 0 (-7 * 2) one ∧
      divDown (-7) 2 = .ok (-4) ∧ divUp (-7) 2 = .ok (-3) ∧ Encloses (-4) (-3) (-7) 2 ∧
      divDownFixed (-7) 2 = .ok (-3500000000000000000) ∧
      divUpFixed (-7) 2 = .ok (-3500000000000000000) ∧
      Encloses (-3500000000000000000) (-3500000000000000000) (-7 * one) 2 := by
  obtain ⟨product, quotients, -⟩ := roundings_enclose (-7) 2
  obtain ⟨⟨down, up, downAt, upAt, plain⟩, low, high, lowAt, highAt, fixed⟩ := quotients (by decide)
  obtain rfl : -4 = down := Except.ok.inj downAt
  obtain rfl : -3 = up := Except.ok.inj upAt
  obtain rfl : -3500000000000000000 = low := Except.ok.inj lowAt
  obtain rfl : -3500000000000000000 = high := Except.ok.inj highAt
  exact ⟨by decide, product, downAt, upAt, plain, lowAt, highAt, fixed⟩

/-- For a negative divisor the raised quotient misses the ceiling. -/
example : divUp 1 (-1) = .ok 1 := by
  decide

end Fixed
end Amm
