import Amm.Proofs.ExactBalance
import Amm.Proofs.Stable.Completion

/-!
Where the balance that completes a stable pool is found. The iteration ends on a step of at most one
unit, which by itself does not say that the root is close. But the step is a quotient rounded down of a
tangent, so one unit more is beyond the root, and what the step has moved is all that one unit less can
be short of it.
-/

namespace Amm
namespace Stable
namespace Curve

variable {curve : Curve} {n d y : Int} {others : List Int}

/-- The balance that the iteration ends on is next to the root. -/
theorem nearRoot_of_settle {b c : Int} (linear : 0 ≤ b) (square : 0 ≤ c) (start : 0 ≤ d)
    (settles : Newton.settle (balanceStep b c d) .yDoesNotConverge steps d = .ok y) :
    NearRoot (b - d) c y := by
  obtain ⟨nonneg, turned⟩ := settle_above linear square start settles
  refine ⟨nonneg, lt_quadratic square linear start settles (lt_add_one y), ?_⟩
  have reached := quadratic_le square linear start settles
  rcases nonneg.eq_or_lt with zero | some
  · exact .inl zero.symm
  refine .inr ?_
  rcases (show y = 1 ∨ 2 ≤ y by omega) with rfl | more
  · simpa using square
  · -- Beyond the point where the quadratic turns it falls by two units at least.
    have fall : 2 ≤ y + (y - (d - b)) := by omega
    linarith

/-- A balance at the root of the quadratic that is built for it, rounded down or one unit above that. One
unit more is beyond the root and one unit less is not. -/
def Completes (curve : Curve) (n d : Int) (others : List Int) (y : Int) : Prop :=
  ∃ b c, curve.coefficients n d others = .ok (b, c) ∧ NearRoot (b - d) c y ∧
    0 ≤ greaterRoot (b - d) c ∧
    IsGreatest {r : ℝ | r * r + (b - d) * r = c} (greaterRoot (b - d) c) ∧
    (y = ⌊greaterRoot (b - d) c⌋ ∨ y = ⌊greaterRoot (b - d) c⌋ + 1)

theorem completes_of_solve (amplified : 0 < curve.amp * n) (precision : 0 ≤ curve.precision)
    (count : 0 ≤ n) (start : 0 ≤ d) (nonneg : ∀ x ∈ others, 0 ≤ x)
    (solved : curve.solve n d others = .ok y) : curve.Completes n d others y := by
  obtain ⟨⟨b, c⟩, computed, settles⟩ := Priced.bind_eq_ok.mp solved
  obtain ⟨linear, square, -⟩ :=
    coefficients_unsigned amplified precision count start nonneg computed
  have constant : (0 : ℝ) ≤ c := by exact_mod_cast square
  have near := nearRoot_of_settle linear square start settles
  have floor := near.floor square
  push_cast at floor
  exact ⟨b, c, computed, near, greaterRoot_nonneg _ constant, isGreatest_greaterRoot constant, floor⟩

section
variable (admissible : curve.Admissible n) (count : n = others.length + 1) (invariant : 0 < d)
include admissible count invariant

/-- The constant of the quadratic is rounded down. -/
theorem constant_le_exactPower {term : Int} (present : ∀ x ∈ others, 0 < x)
    (multiplied : remainingTerm n d others = .ok term) :
    (term * d * curve.precision).fdiv (curve.amp * n * n) ≤
      exactPower d others / (curve.amp * n / curve.precision) := by
  have some : 0 < n := by omega
  have ampTotal := admissible.ampTotal_pos
  rw [remainingTerm_eq some.ne'] at multiplied
  have product := dividedTerm_mul_le invariant.le
    (fun x member => mul_pos (present x member) some) multiplied
  have divisors : (0 : ℚ) < ((others.map (· * n)).prod : Int) := by
    exact_mod_cast divisors_pos present some
  have tokens : (0 : ℚ) < n := by exact_mod_cast some
  have amp : (0 : ℚ) < curve.amp * n := by exact_mod_cast ampTotal
  have unit : (0 : ℚ) < curve.precision := by
    have precision : (0 : Int) < curve.precision := admissible.precision
    exact_mod_cast precision
  have start : (0 : ℚ) ≤ d := by exact_mod_cast invariant.le
  refine (cast_fdiv_le (mul_pos ampTotal some)).trans ?_
  rw [exactPower, ← count]
  generalize (others.map (· * n)).prod = divisor at product divisors ⊢
  have kept : (term * divisor : ℚ) ≤ d * d ^ others.length := by exact_mod_cast product
  push_cast
  calc
    (term * d * curve.precision / (curve.amp * n * n) : ℚ)
        = term * divisor * (d * curve.precision / (curve.amp * n * n * divisor)) := by field_simp
    _ ≤ d * d ^ others.length * (d * curve.precision / (curve.amp * n * n * divisor)) :=
      mul_le_mul_of_nonneg_right kept (by positivity)
    _ = _ := by
      field_simp
      ring

/-- A solved balance exceeds the exact one by two units at most: one for the linear coefficient, which is
rounded down, and one for the iteration. -/
theorem solve_le_exactBalance_add_two (unsigned : ∀ x ∈ others, 0 ≤ x)
    (solved : curve.solve n d others = .ok y) :
    y ≤ exactBalance (curve.amp * n / curve.precision) d others + 2 := by
  have some : 0 < n := by omega
  have precision : (0 : Int) < curve.precision := admissible.precision
  have ampTotal := admissible.ampTotal_pos
  have weighty := admissible.leverage_pos
  have present : ∀ x ∈ others, 0 < x := fun x member => (unsigned x member).lt_of_ne
    (solve_present admissible some.le invariant.le unsigned solved x member).symm
  obtain ⟨b, c, computed, near, -⟩ :=
    completes_of_solve ampTotal precision.le some.le invariant.le unsigned solved
  rcases near.previous with rfl | below
  · have root := exactBalance_pos weighty invariant present
    push_cast
    linarith
  simp only [coefficients, Priced.bind_eq_ok, Priced.require_eq_ok, Except.ok.injEq,
    Prod.mk.injEq] at computed
  obtain ⟨_, -, term, multiplied, rfl, rfl⟩ := computed
  have slope := div_lt_cast_fdiv_add_one (a := d * curve.precision) ampTotal
  have exact := le_exactBalance_of_quadratic weighty invariant present (z := y - 2)
    (b := total others + (d * curve.precision).fdiv (curve.amp * n))
    (c := (term * d * curve.precision).fdiv (curve.amp * n * n)) ?_
    (constant_le_exactPower admissible count invariant present multiplied) ?_
  · push_cast at exact
    linarith
  · rw [exactSlope, div_div_eq_mul_div]
    push_cast at slope ⊢
    linarith
  · rw [show y - 2 + 1 = y - 1 by ring]
    exact below

end

/-- Whatever the other balances are, a balance that completes them or that follows a sale is found at its
root. -/
theorem found_balances_complete (curve : Curve) (xp : List Int) (d : Int)
    (amplified : 0 < curve.amp * xp.length) (precision : 0 < curve.precision) (start : 0 ≤ d) :
    (∀ i y, (∀ x ∈ xp.eraseIdx i, 0 < x) → curve.balanceFor i xp d = .ok y →
      curve.Completes xp.length d (xp.eraseIdx i) y) ∧
    ∀ i j x y, curve.invariant xp = .ok d → (∀ other ∈ (xp.set i x).eraseIdx j, 0 < other) →
      curve.balanceAfter i j x xp = .ok y →
      curve.Completes xp.length d ((xp.set i x).eraseIdx j) y := by
  have count : (0 : Int) ≤ xp.length := Int.natCast_nonneg _
  constructor
  · intro i y positive completes
    obtain ⟨_, -, solved⟩ := Priced.bind_eq_ok.mp completes
    exact completes_of_solve amplified precision.le count start
      (fun x member => (positive x member).le) solved
  · intro i j x y found positive follows
    obtain ⟨-, -, -, _, found', solved⟩ := balanceAfter_eq_ok follows
    obtain rfl := Except.ok.inj (found.symm.trans found')
    exact completes_of_solve amplified precision.le count start
      (fun x member => (positive x member).le) solved

/-- The curve of a pool with the offset in its divisors. -/
def unevenTripleCurve : Curve :=
  ⟨2000, 1, true⟩

/-- Three balances, of which the last one is nearly twice the others. -/
def unevenTriple : List Int :=
  [93649867132724477811796755, 92440712316473000000000000, 175421309630243000000000000]

theorem unevenTriple_sale_completes :
    0 < unevenTripleCurve.amp * unevenTriple.length ∧ 0 < unevenTripleCurve.precision ∧
      ∃ d y, 0 ≤ d ∧ unevenTripleCurve.invariant unevenTriple = .ok d ∧
        unevenTripleCurve.balanceAfter 0 2 193649867132724477811796755 unevenTriple = .ok y ∧
        unevenTripleCurve.Completes 3 d
          [193649867132724477811796755, 92440712316473000000000000] y := by
  obtain ⟨d, found, start⟩ := Priced.map_eq_ok.mp (show
    (unevenTripleCurve.invariant unevenTriple).map (fun d => decide (0 ≤ d)) = .ok true by
      decide +kernel)
  obtain ⟨y, follows, -⟩ := Priced.map_eq_ok.mp (show
    (unevenTripleCurve.balanceAfter 0 2 193649867132724477811796755 unevenTriple).map
      (fun y => decide (0 ≤ y)) = .ok true by decide +kernel)
  have nonneg : 0 ≤ d := of_decide_eq_true start
  exact ⟨by decide, by decide, d, y, nonneg, found, follows,
    (found_balances_complete unevenTripleCurve unevenTriple d (by decide) (by decide) nonneg).2 0 2 _ y
      found (by decide) follows⟩

end Curve
end Stable
end Amm
