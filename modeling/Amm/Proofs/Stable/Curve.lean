import Amm.Proofs.Newton
import Amm.Proofs.Rounding
import Amm.Stable.Curve

/-!
Signs along the iterations of a stable pool. Balances that are not negative have an invariant that is
not negative, because no step of the iteration takes a value below zero.
-/

namespace Amm
namespace Stable
namespace Curve

/-- The amplification is at least one for `n` balances together. -/
structure Admissible (curve : Curve) (n : Int) : Prop where
  precision : 1 ≤ curve.precision
  amp : curve.precision ≤ curve.amp * n

theorem Admissible.ampTotal_pos {curve : Curve} {n : Int} (admissible : curve.Admissible n) :
    0 < curve.amp * n := by
  have precision : (0 : Int) < curve.precision := admissible.precision
  exact precision.trans_le admissible.amp

theorem Admissible.leverage_pos {curve : Curve} {n : Int} (admissible : curve.Admissible n) :
    (0 : ℚ) < curve.amp * n / curve.precision := by
  have precision : (0 : Int) < curve.precision := admissible.precision
  exact div_pos (by exact_mod_cast admissible.ampTotal_pos) (by exact_mod_cast precision)

/-- At the sum the damping is the weighted sum less the sum. -/
theorem damping_eq_sub {curve : Curve} (precision : curve.precision ≠ 0) (n sum : Int) :
    ((curve.amp * n - curve.precision) * sum).fdiv curve.precision =
      (curve.amp * n * sum).fdiv curve.precision - sum := by
  rw [sub_mul, sub_eq_add_neg, ← mul_neg, Int.add_mul_fdiv_left _ _ precision, sub_eq_add_neg]

theorem divisor_nonneg (curve : Curve) {n x : Int} (count : 0 ≤ n) (nonneg : 0 ≤ x) :
    0 ≤ curve.divisor n x := by
  have product : 0 ≤ x * n := mul_nonneg nonneg count
  unfold divisor
  split <;> omega

theorem productTerm_nonneg (curve : Curve) {n d term : Int} {xp : List Int} (count : 0 ≤ n)
    (nonneg : ∀ x ∈ xp, 0 ≤ x) (start : 0 ≤ d) (computed : curve.productTerm n d xp = .ok term) :
    0 ≤ term := by
  refine Priced.foldlM_preserves (0 ≤ ·) start
    (fun current x next member holds step => ?_) computed
  by_cases zero : curve.divisor n x = 0
  · simp [zero] at step
  · obtain rfl : (current * d).fdiv (curve.divisor n x) = next := by simpa [zero] using step
    exact Int.fdiv_nonneg (mul_nonneg holds start) (curve.divisor_nonneg count (nonneg x member))

theorem invariantStep_nonneg {curve : Curve} {xp : List Int} {sum d next : Int}
    (admissible : curve.Admissible xp.length) (nonneg : ∀ x ∈ xp, 0 ≤ x) (total : 0 ≤ sum)
    (start : 0 ≤ d) (step : curve.invariantStep xp sum d = .ok next) : 0 ≤ next := by
  have ⟨precision, amp⟩ := admissible
  simp only [invariantStep, Priced.bind_eq_ok, Priced.bareQuotient_eq_ok,
    Priced.quotient_eq_ok] at step
  obtain ⟨product, computed, weighted, ⟨-, rfl⟩, damping, ⟨-, rfl⟩, -, rfl⟩ := step
  have count : (0 : Int) ≤ xp.length := Int.natCast_nonneg _
  have product : 0 ≤ product := curve.productTerm_nonneg count nonneg start computed
  have weighted : 0 ≤ (curve.amp * xp.length * sum).fdiv curve.precision :=
    Int.fdiv_nonneg (mul_nonneg (by omega) total) (by omega)
  have damping : 0 ≤ ((curve.amp * xp.length - curve.precision) * d).fdiv curve.precision :=
    Int.fdiv_nonneg (mul_nonneg (by omega) start) (by omega)
  apply Int.fdiv_nonneg <;> positivity

theorem invariant_nonneg {curve : Curve} {xp : List Int} {d : Int}
    (admissible : curve.Admissible xp.length) (nonneg : ∀ x ∈ xp, 0 ≤ x)
    (computed : curve.invariant xp = .ok d) : 0 ≤ d := by
  have sum : 0 ≤ total xp := total_nonneg nonneg
  unfold invariant at computed
  by_cases empty : total xp = 0
  · obtain rfl : 0 = d := by simpa [empty] using computed
    exact le_refl 0
  · rw [if_neg empty] at computed
    exact Newton.settle_preserves (0 ≤ ·)
      (fun _ _ start step => invariantStep_nonneg admissible nonneg sum start step) sum computed

end Curve
end Stable
end Amm
