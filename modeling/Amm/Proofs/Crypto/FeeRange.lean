import Amm.Proofs.Crypto.Views
import Amm.Proofs.Equation
import Amm.Proofs.Rounding
import Mathlib.Algebra.Order.BigOperators.GroupWithZero.List
import Mathlib.Tactic.Ring

/-!
The range of the fee. What is left of one after multiplying by each balance and dividing by their mean
is the ratio of a product to the power of its mean, rounded down on the way, so it is at most one. This
keeps the divisor of the stretched coefficient positive, and the fee, a mix of two fees weighted by the
coefficient, between the two.
-/

namespace Amm
namespace Crypto

variable {d start : Int} {factors x : List Int}

theorem reduceBy_cons {factor : Int} (nonzero : d ≠ 0) :
    reduceBy d start (factor :: factors) = reduceBy d ((start * factor).fdiv d) factors := by
  rw [reduceBy, List.foldlM_cons, Priced.quotient_eq_ok.mpr ⟨nonzero, rfl⟩, Priced.ok_bind]
  rfl

theorem exists_reduceBy (positive : 0 < d) (unsigned : ∀ factor ∈ factors, 0 ≤ factor)
    (nonneg : 0 ≤ start) :
    ∃ value, reduceBy d start factors = .ok value ∧ 0 ≤ value ∧
      value * d ^ factors.length ≤ start * factors.prod := by
  induction factors generalizing start with
  | nil => exact ⟨start, rfl, nonneg, by simp⟩
  | cons factor factors ih =>
      obtain ⟨first, others⟩ := List.forall_mem_cons.mp unsigned
      have kept : 0 ≤ (start * factor).fdiv d :=
        Int.fdiv_nonneg (mul_nonneg nonneg first) positive.le
      obtain ⟨value, reduced, valueNonneg, bound⟩ := ih others kept
      refine ⟨value, by rw [reduceBy_cons positive.ne', reduced], valueNonneg, ?_⟩
      have rounded : (start * factor).fdiv d * d ≤ start * factor :=
        (le_fdiv_iff positive).mp le_rfl
      have product : 0 ≤ factors.prod := List.prod_nonneg others
      calc value * d ^ (factors.length + 1) = value * d ^ factors.length * d := by ring
        _ ≤ (start * factor).fdiv d * factors.prod * d :=
          mul_le_mul_of_nonneg_right bound positive.le
        _ = (start * factor).fdiv d * d * factors.prod := by ring
        _ ≤ start * factor * factors.prod := mul_le_mul_of_nonneg_right rounded product
        _ = start * (factor :: factors).prod := by rw [List.prod_cons, mul_assoc]

/-- Factors that are all equal to the divisor leave the start as it is. -/
theorem reduceBy_of_eq (nonzero : d ≠ 0) (same : ∀ factor ∈ factors, factor = d) :
    reduceBy d start factors = .ok start := by
  induction factors with
  | nil => rfl
  | cons factor factors ih =>
      obtain ⟨rfl, others⟩ := List.forall_mem_cons.mp same
      rw [reduceBy_cons nonzero, Int.mul_fdiv_cancel _ nonzero]
      exact ih others

/-- The product of the balances, each against their mean, is at most one. -/
theorem exists_reduceBy_total (unsigned : ∀ balance ∈ x, 0 ≤ balance) (present : 0 < total x) :
    ∃ k, reduceBy (total x) Fixed.one (x.map ((x.length : Int) * ·)) = .ok k ∧ 0 ≤ k ∧
      k ≤ Fixed.one := by
  have factors : ∀ factor ∈ x.map ((x.length : Int) * ·), 0 ≤ factor := by
    intro factor member
    obtain ⟨balance, held, rfl⟩ := List.mem_map.mp member
    exact mul_nonneg (Int.natCast_nonneg _) (unsigned balance held)
  obtain ⟨k, reduced, nonneg, bound⟩ := exists_reduceBy present factors Fixed.one_pos.le
  refine ⟨k, reduced, nonneg, ?_⟩
  have mean := prod_mul_length_le unsigned
  rw [← total_eq_sum] at mean
  rw [List.length_map] at bound
  apply le_of_mul_le_mul_right _ (pow_pos present x.length)
  calc k * total x ^ x.length ≤ Fixed.one * (x.map ((x.length : Int) * ·)).prod := bound
    _ = Fixed.one * (x.map (· * (x.length : Int))).prod := by simp only [mul_comm]
    _ ≤ Fixed.one * total x ^ x.length := mul_le_mul_of_nonneg_left mean Fixed.one_pos.le

/-- The total of equal balances is each of them as often as there are balances. -/
theorem length_mul_eq_total (same : ∀ balance ∈ x, ∀ other ∈ x, balance = other) :
    ∀ balance ∈ x, (x.length : Int) * balance = total x := by
  intro balance member
  have repeated : x = List.replicate x.length balance :=
    List.eq_replicate_of_mem fun other held => same other held balance member
  conv_rhs => rw [repeated, total_eq_sum, List.sum_replicate, nsmul_eq_mul]

theorem exists_reductionCoefficient (feeGamma : Int) (unsigned : ∀ balance ∈ x, 0 ≤ balance)
    (present : 0 < total x) :
    ∃ f, reductionCoefficient x feeGamma = .ok f ∧ 0 ≤ f ∧ f ≤ Fixed.one := by
  obtain ⟨k, reduced, nonneg, bound⟩ := exists_reduceBy_total unsigned present
  unfold reductionCoefficient
  dsimp only
  rw [reduced, Priced.ok_bind]
  split
  · rename_i stretches
    have divisor : 0 < feeGamma + Fixed.one - k := by omega
    refine ⟨_, Priced.quotient_eq_ok.mpr ⟨divisor.ne', rfl⟩, ?_, ?_⟩
    · exact Int.fdiv_nonneg (mul_nonneg stretches.le Fixed.one_pos.le) divisor.le
    · rw [fdiv_le_iff divisor]
      have whole : 0 ≤ Fixed.one * (Fixed.one - k) := mul_nonneg Fixed.one_pos.le (by omega)
      linarith
  · exact ⟨k, rfl, nonneg, bound⟩

theorem reductionCoefficient_of_eq (feeGamma : Int) (present : 0 < total x)
    (same : ∀ balance ∈ x, ∀ other ∈ x, balance = other) :
    reductionCoefficient x feeGamma = .ok Fixed.one := by
  have factors : ∀ factor ∈ x.map ((x.length : Int) * ·), factor = total x := by
    intro factor member
    obtain ⟨balance, held, rfl⟩ := List.mem_map.mp member
    exact length_mul_eq_total same balance held
  unfold reductionCoefficient
  dsimp only
  rw [reduceBy_of_eq present.ne' factors, Priced.ok_bind]
  split
  · rename_i stretches
    rw [add_sub_cancel_right]
    exact Priced.quotient_eq_ok.mpr ⟨stretches.ne', Int.mul_fdiv_cancel_left _ stretches.ne'⟩
  · rfl

/-- A mix of two values weighted by a part of one and the rest, rounded down, lies between them. -/
theorem mix_between (mid out : Int) {f : Int} (nonneg : 0 ≤ f) (part : f ≤ Fixed.one) :
    min mid out ≤ (mid * f + out * (Fixed.one - f)).fdiv Fixed.one ∧
      (mid * f + out * (Fixed.one - f)).fdiv Fixed.one ≤ max mid out := by
  have rest : 0 ≤ Fixed.one - f := by omega
  have unit := Fixed.one_pos
  constructor
  · rw [le_fdiv_iff unit]
    have lowMid := mul_le_mul_of_nonneg_right (min_le_left mid out) nonneg
    have lowOut := mul_le_mul_of_nonneg_right (min_le_right mid out) rest
    linarith
  · rw [fdiv_le_iff unit]
    have highMid := mul_le_mul_of_nonneg_right (le_max_left mid out) nonneg
    have highOut := mul_le_mul_of_nonneg_right (le_max_right mid out) rest
    linarith

end Crypto

namespace CryptoPool

open Crypto

/-- Balances that are not negative and not all zero have a coefficient between zero and one and a fee
between the mid fee and the out fee; equal balances have the coefficient one and the mid fee. Every
division on the way refuses a divisor of zero, so none of them meets one. -/
theorem fee_between_mid_and_out (pool : CryptoPool) (x : List Int)
    (unsigned : ∀ balance ∈ x, 0 ≤ balance) (present : 0 < total x) :
    ∃ f rate, reductionCoefficient x pool.feeGamma = .ok f ∧ pool.fee x = .ok rate ∧
      0 ≤ f ∧ f ≤ Fixed.one ∧ min pool.midFee pool.outFee ≤ rate ∧
      rate ≤ max pool.midFee pool.outFee ∧
      ((∀ balance ∈ x, ∀ other ∈ x, balance = other) → f = Fixed.one ∧ rate = pool.midFee) := by
  obtain ⟨f, reduced, nonneg, part⟩ := exists_reductionCoefficient pool.feeGamma unsigned present
  have between := mix_between pool.midFee pool.outFee nonneg part
  refine ⟨f, _, reduced, ?_, nonneg, part, between.1, between.2, ?_⟩
  · rw [CryptoPool.fee, reduced]
    rfl
  · intro same
    obtain rfl : f = Fixed.one :=
      Except.ok.inj (reduced.symm.trans (reductionCoefficient_of_eq _ present same))
    refine ⟨rfl, ?_⟩
    rw [sub_self, mul_zero, add_zero]
    exact Int.mul_fdiv_cancel _ Fixed.one_pos.ne'

/-- Two balances of which one is twice the other, and three equal ones. -/
theorem leaning_and_level_fees :
    (∀ balance ∈ [4 * 10 ^ 24, 2 * 10 ^ 24], (0 : Int) ≤ balance) ∧
      0 < total [4 * 10 ^ 24, 2 * 10 ^ 24] ∧
      (∃ f rate, reductionCoefficient [4 * 10 ^ 24, 2 * 10 ^ 24] samplePair.feeGamma = .ok f ∧
        samplePair.fee [4 * 10 ^ 24, 2 * 10 ^ 24] = .ok rate ∧ f = 2065723951420559 ∧
        min samplePair.midFee samplePair.outFee ≤ rate ∧
        rate ≤ max samplePair.midFee samplePair.outFee) ∧
      sampleTriple.fee [10 ^ 24, 10 ^ 24, 10 ^ 24] = .ok sampleTriple.midFee := by
  have unsigned : ∀ balance ∈ [4 * 10 ^ 24, 2 * 10 ^ 24], (0 : Int) ≤ balance := by decide
  obtain ⟨f, rate, reduced, priced, -, -, low, high, -⟩ := fee_between_mid_and_out samplePair
    [4 * 10 ^ 24, 2 * 10 ^ 24] unsigned (by decide)
  have value : reductionCoefficient [4 * 10 ^ 24, 2 * 10 ^ 24] samplePair.feeGamma =
      .ok 2065723951420559 := by decide +kernel
  obtain ⟨_, level, -, same, -, -, -, -, equal⟩ := fee_between_mid_and_out sampleTriple
    [10 ^ 24, 10 ^ 24, 10 ^ 24] (by decide) (by decide)
  obtain ⟨-, rfl⟩ := equal (by decide)
  exact ⟨unsigned, by decide,
    ⟨f, rate, reduced, priced, Except.ok.inj (reduced.symm.trans value), low, high⟩, same⟩

end CryptoPool
end Amm
