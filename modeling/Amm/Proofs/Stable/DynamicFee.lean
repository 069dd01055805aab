import Amm.Pool.Lending
import Amm.Proofs.Stable.Solvency
import Mathlib.Algebra.Order.Ring.Abs
import Mathlib.Tactic.Ring

/-!
The dynamic fee of lending pools. It is the base fee times a multiplier, divided by how near the two
balances are to each other. For equal balances this divisor is at most the multiplier, because four times
a product is not above the square of the sum, and for a vanishing balance it is the fee unit. So the fee
lies between the base fee and the multiplied one, and it rises as two balances of one sum drift apart.
-/

namespace Amm
namespace LendingPool

/-- How near two balances are: the excess of the multiplier over the fee unit where they are equal,
falling to nothing as one of them vanishes. -/
def closeness (first second multiplier : Int) : Int :=
  ((multiplier - Stable.feeUnit) * 4 * first * second).fdiv ((first + second) * (first + second))

section
variable {first second first' second' fee multiplier : Int}

theorem closeness_comm (first second multiplier : Int) :
    closeness first second multiplier = closeness second first multiplier := by
  rw [closeness, closeness, mul_right_comm, add_comm first second]

/-- Balances of one sum have the smaller product the further they are apart. -/
theorem product_le_of_distance (same : first' + second' = first + second)
    (apart : |first - second| ≤ |first' - second'|) : first' * second' ≤ first * second := by
  have squares := sq_le_sq.mpr apart
  have sums : (first' + second') ^ 2 = (first + second) ^ 2 := by rw [same]
  linarith

section
variable (rises : Stable.feeUnit ≤ multiplier)
include rises

theorem closeness_nonneg (unsigned : 0 ≤ first) (unsigned' : 0 ≤ second) :
    0 ≤ closeness first second multiplier := by
  have excess : 0 ≤ (multiplier - Stable.feeUnit) * 4 := by omega
  exact Int.fdiv_nonneg (mul_nonneg (mul_nonneg excess unsigned) unsigned') (mul_self_nonneg _)

theorem closeness_le (some : 0 < first + second) :
    closeness first second multiplier ≤ multiplier - Stable.feeUnit := by
  have excess : 0 ≤ multiplier - Stable.feeUnit := sub_nonneg.mpr rises
  have square : 0 < (first + second) * (first + second) := mul_pos some some
  have product := mul_le_mul_of_nonneg_left (four_mul_le_sq_add first second) excess
  rw [closeness, fdiv_le_iff square]
  linarith

theorem closeness_le_of_distance (some : 0 < first + second)
    (same : first' + second' = first + second) (apart : |first - second| ≤ |first' - second'|) :
    closeness first' second' multiplier ≤ closeness first second multiplier := by
  have excess : 0 ≤ (multiplier - Stable.feeUnit) * 4 := by omega
  have product := mul_le_mul_of_nonneg_left (product_le_of_distance same apart) excess
  rw [closeness, closeness, same]
  apply fdiv_le_fdiv (mul_pos some some)
  linarith

end

/-- The fee does not change with the balances where the multiplier raises nothing or nothing is held. -/
theorem dynamicFee_flat (flat : multiplier ≤ Stable.feeUnit ∨ first + second = 0) :
    dynamicFee first second fee multiplier = .ok fee := by
  rw [dynamicFee]
  exact if_pos (by simpa using flat)

theorem dynamicFee_rising (rises : Stable.feeUnit < multiplier) (unsigned : 0 ≤ first)
    (unsigned' : 0 ≤ second) (some : 0 < first + second) :
    dynamicFee first second fee multiplier =
      .ok ((multiplier * fee).fdiv (closeness first second multiplier + Stable.feeUnit)) := by
  have near := closeness_nonneg rises.le unsigned unsigned'
  have divisor : 0 < closeness first second multiplier + Stable.feeUnit :=
    add_pos_of_nonneg_of_pos near Stable.feeUnit_pos
  rw [dynamicFee, if_neg (by simp [rises, some.ne']), ← closeness]
  exact Priced.bareQuotient_eq_ok.mpr ⟨divisor.ne', rfl⟩

/-- A fee divided by something between the unit and the multiplier is between the base fee and the whole
multiple. -/
theorem charged_bounds {divisor : Int} (charge : 0 ≤ fee) (low : Stable.feeUnit ≤ divisor)
    (high : divisor ≤ multiplier) :
    fee ≤ (multiplier * fee).fdiv divisor ∧
      (multiplier * fee).fdiv divisor ≤ (multiplier * fee).fdiv Stable.feeUnit := by
  have unit := Stable.feeUnit_pos
  have positive : 0 < divisor := unit.trans_le low
  have multiple : 0 ≤ multiplier * fee := mul_nonneg (positive.le.trans high) charge
  refine ⟨?_, fdiv_le_fdiv_of_divisor multiple unit low⟩
  rw [le_fdiv_iff positive, mul_comm fee]
  exact mul_le_mul_of_nonneg_right high charge

theorem dynamicFee_comm (unsigned : 0 ≤ first) (unsigned' : 0 ≤ second) :
    dynamicFee second first fee multiplier = dynamicFee first second fee multiplier := by
  rcases le_or_gt multiplier Stable.feeUnit with flat | rises
  · rw [dynamicFee_flat (.inl flat), dynamicFee_flat (.inl flat)]
  · rcases (add_nonneg unsigned unsigned').eq_or_lt with none | some
    · rw [dynamicFee_flat (.inr ((add_comm second first).trans none.symm)),
        dynamicFee_flat (.inr none.symm)]
    · rw [dynamicFee_rising rises unsigned' unsigned (add_comm first second ▸ some),
        dynamicFee_rising rises unsigned unsigned' some, closeness_comm]

theorem exists_dynamicFee (multiplier : Int) (unsigned : 0 ≤ first) (unsigned' : 0 ≤ second)
    (charge : 0 ≤ fee) :
    ∃ rate, dynamicFee first second fee multiplier = .ok rate ∧ fee ≤ rate ∧
      rate ≤ max fee ((multiplier * fee).fdiv Stable.feeUnit) := by
  have base : fee ≤ max fee ((multiplier * fee).fdiv Stable.feeUnit) := le_max_left _ _
  rcases le_or_gt multiplier Stable.feeUnit with flat | rises
  · exact ⟨fee, dynamicFee_flat (.inl flat), le_rfl, base⟩
  rcases (add_nonneg unsigned unsigned').eq_or_lt with none | some
  · exact ⟨fee, dynamicFee_flat (.inr none.symm), le_rfl, base⟩
  have near := closeness_nonneg rises.le unsigned unsigned'
  have least : Stable.feeUnit ≤ closeness first second multiplier + Stable.feeUnit :=
    le_add_of_nonneg_left near
  have most : closeness first second multiplier + Stable.feeUnit ≤ multiplier :=
    le_sub_iff_add_le.mp (closeness_le rises.le some)
  obtain ⟨low, high⟩ := charged_bounds charge least most
  exact ⟨_, dynamicFee_rising rises unsigned unsigned' some, low, le_max_of_le_right high⟩

/-- Of two pairs of balances with one sum, the one further apart is not charged less. -/
theorem dynamicFee_le_of_distance {rate rate' : Int} (unsigned : 0 ≤ first) (unsigned' : 0 ≤ second)
    (start : 0 ≤ first') (start' : 0 ≤ second') (charge : 0 ≤ fee) (some : 0 < first + second)
    (same : first' + second' = first + second) (apart : |first - second| ≤ |first' - second'|)
    (charged : dynamicFee first second fee multiplier = .ok rate)
    (charged' : dynamicFee first' second' fee multiplier = .ok rate') : rate ≤ rate' := by
  rcases le_or_gt multiplier Stable.feeUnit with flat | rises
  · rw [dynamicFee_flat (.inl flat)] at charged charged'
    exact (Except.ok.inj (charged.symm.trans charged')).le
  rw [dynamicFee_rising rises unsigned unsigned' some] at charged
  rw [dynamicFee_rising rises start start' (same ▸ some)] at charged'
  obtain rfl := Except.ok.inj charged
  obtain rfl := Except.ok.inj charged'
  have unit := Stable.feeUnit_pos
  have near := closeness_nonneg rises.le start start'
  have nearer := closeness_le_of_distance rises.le some same apart
  exact fdiv_le_fdiv_of_divisor (mul_nonneg (unit.trans rises).le charge) (by omega) (by omega)

end

/-- The dynamic fee of two balances is at least the base fee and at most the greater of it and its
multiple. It is the same for the balances in the other order, and for balances of one sum it does not
fall as they drift apart. -/
theorem dynamic_fee_rises_with_distance (first second fee multiplier : Int) (unsigned : 0 ≤ first)
    (unsigned' : 0 ≤ second) (charge : 0 ≤ fee) :
    ∃ rate, dynamicFee first second fee multiplier = .ok rate ∧ fee ≤ rate ∧
      rate ≤ max fee ((multiplier * fee).fdiv Stable.feeUnit) ∧
      dynamicFee second first fee multiplier = .ok rate ∧
      ∀ first' second' : Int, 0 ≤ first' → 0 ≤ second' → 0 < first + second →
        first' + second' = first + second → |first - second| ≤ |first' - second'| →
        ∃ rate', dynamicFee first' second' fee multiplier = .ok rate' ∧ rate ≤ rate' := by
  obtain ⟨rate, charged, low, high⟩ := exists_dynamicFee multiplier unsigned unsigned' charge
  refine ⟨rate, charged, low, high, (dynamicFee_comm unsigned unsigned').trans charged, ?_⟩
  intro first' second' start start' some same apart
  obtain ⟨rate', charged', -⟩ := exists_dynamicFee multiplier start start' charge
  exact ⟨rate', charged', dynamicFee_le_of_distance unsigned unsigned' start start' charge some same
    apart charged charged'⟩

/-- At a multiplier of two, balances of three and one are charged a seventh more than the base fee, and
balances of four and nothing twice the base fee. -/
theorem uneven_balances_charged_more :
    dynamicFee 1 3 4000000 20000000000 = .ok 4571428 ∧ (4000000 : Int) ≤ 4571428 ∧
      (4571428 : Int) ≤ max 4000000 ((20000000000 * 4000000 : Int).fdiv Stable.feeUnit) ∧
      ∃ rate, dynamicFee 0 4 4000000 20000000000 = .ok rate ∧ rate = 8000000 ∧ 4571428 ≤ rate := by
  obtain ⟨rate, charged, low, high, swapped, rises⟩ := dynamic_fee_rises_with_distance 3 1 4000000
    20000000000 (by decide) (by decide) (by decide)
  obtain rfl : rate = 4571428 := (Except.ok.inj charged).symm
  obtain ⟨most, charged', above⟩ := rises 0 4 (by decide) (by decide) (by decide) (by decide)
    (by decide)
  exact ⟨swapped, low, high, most, charged', (Except.ok.inj charged').symm, above⟩

end LendingPool
end Amm
