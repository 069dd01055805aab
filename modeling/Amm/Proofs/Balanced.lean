import Amm.Proofs.Agreement
import Amm.Proofs.Crypto.Curve
import Amm.Proofs.Crypto.FeeRange
import Amm.Proofs.Stable.Accuracy

/-!
The invariant of equal balances. The iterations start at the sum, where every product term divides
without remainder, so the first step gives back the sum and ends the iteration.
-/

namespace Amm

variable {m : Int} {n : Nat}

theorem total_replicate (n : Nat) (m : Int) : total (List.replicate n m) = n * m := by
  rw [total_eq_sum, List.sum_replicate, nsmul_eq_mul]

namespace Stable
namespace Curve

/-- Divisors that are all equal to the invariant leave the term as it is. -/
theorem dividedTerm_of_eq {divisor : Int → Int} {d start : Int} {balances : List Int}
    (nonzero : d ≠ 0) (same : ∀ x ∈ balances, divisor x = d) :
    dividedTerm divisor d start balances = .ok start := by
  induction balances with
  | nil => rfl
  | cons x balances ih =>
      obtain ⟨first, others⟩ := List.forall_mem_cons.mp same
      rw [dividedTerm, List.foldlM_cons, first, if_neg nonzero, Priced.ok_bind,
        Int.mul_fdiv_cancel _ nonzero]
      exact ih others

theorem productTerm_replicate {curve : Curve} (plain : curve.offset = false) (count : 0 < n)
    (positive : 0 < m) :
    curve.productTerm n (n * m) (List.replicate n m) = .ok (n * m) := by
  rw [productTerm_eq]
  apply dividedTerm_of_eq
  · have := mul_pos (Int.natCast_pos.mpr count) positive
    omega
  · intro x member
    obtain rfl := List.eq_of_mem_replicate member
    simp [divisor, plain, mul_comm]

theorem invariantStep_replicate {curve : Curve} (plain : curve.offset = false)
    (amp : 0 ≤ curve.amp) (precision : 0 < curve.precision) (count : 0 < n) (positive : 0 < m) :
    curve.invariantStep (List.replicate n m) (n * m) (n * m) = .ok (n * m) := by
  have coins : (0 : Int) < n := Int.natCast_pos.mpr count
  have sum : (0 : Int) < n * m := mul_pos coins positive
  have weighted : 0 ≤ (curve.amp * n * (n * m)).fdiv curve.precision :=
    Int.fdiv_nonneg (mul_nonneg (mul_nonneg amp coins.le) sum.le) precision.le
  have divisor : 0 < (curve.amp * n * (n * m)).fdiv curve.precision + n * m * n := by
    have := mul_pos sum coins
    omega
  simp only [invariantStep, List.length_replicate, Priced.bind_eq_ok, Priced.bareQuotient_eq_ok,
    Priced.quotient_eq_ok]
  refine ⟨_, productTerm_replicate plain count positive, _, ⟨precision.ne', rfl⟩, _,
    ⟨precision.ne', rfl⟩, ?_⟩
  rw [damping_eq_sub precision.ne', show (curve.amp * n * (n * m)).fdiv curve.precision - n * m + n * m * (n + 1) =
    (curve.amp * n * (n * m)).fdiv curve.precision + n * m * n by ring]
  exact ⟨divisor.ne', Int.mul_fdiv_cancel_left _ divisor.ne'⟩

theorem invariant_replicate {curve : Curve} (plain : curve.offset = false) (amp : 0 ≤ curve.amp)
    (precision : 0 < curve.precision) (positive : 0 < m) :
    curve.invariant (List.replicate n m) = .ok (n * m) := by
  unfold invariant
  dsimp only
  rw [total_replicate]
  rcases n.eq_zero_or_pos with rfl | count
  · simp
  · have sum := mul_pos (Int.natCast_pos.mpr count) positive
    rw [if_neg sum.ne']
    exact Newton.settle_of_fixed (invariantStep_replicate plain amp precision count positive)

end Curve
end Stable

namespace Composable

theorem invariant_replicate {amp : Int} (unsigned : 0 ≤ amp) (positive : 0 < m) :
    Composable.invariant amp (List.replicate n m) = .ok (n * m) := by
  unfold Composable.invariant
  dsimp only
  rw [total_replicate]
  rcases n.eq_zero_or_pos with rfl | count
  · simp
  · have sum := mul_pos (Int.natCast_pos.mpr count) positive
    rw [if_neg sum.ne']
    apply Newton.settle_of_fixed
    rw [invariantStep_agrees]
    exact Stable.Curve.invariantStep_replicate rfl unsigned
      (show (0 : Int) < ampUnit by decide) count positive

end Composable

namespace SyncSwap

theorem invariantStep_of_eq {a : Int} (unsigned : 0 ≤ a) (positive : 0 < m) :
    invariantStep a m m (2 * m) (2 * m) = .ok (2 * m) := by
  have first : (2 * m * (2 * m)).fdiv m = 4 * m := by
    rw [show 2 * m * (2 * m) = 4 * m * m by ring]
    exact Int.mul_fdiv_cancel _ positive.ne'
  have second : (4 * m * (2 * m)).fdiv m = 4 * (2 * m) := by
    rw [show 4 * m * (2 * m) = 4 * (2 * m) * m by ring]
    exact Int.mul_fdiv_cancel _ positive.ne'
  have product : (4 * (2 * m)).fdiv 4 = 2 * m := Int.mul_fdiv_cancel_left _ (by decide)
  have divisor : 0 < a * 2 * (2 * m) + 2 * m * 2 := by
    have := mul_nonneg unsigned positive.le
    linarith
  simp only [invariantStep, Priced.bind_eq_ok, Priced.quotient_eq_ok]
  refine ⟨_, ⟨positive.ne', first⟩, _, ⟨positive.ne', second⟩, ?_⟩
  rw [product, show (a * 2 - 1) * (2 * m) + 2 * m * 3 = a * 2 * (2 * m) + 2 * m * 2 by ring]
  exact ⟨divisor.ne', Int.mul_fdiv_cancel_left _ divisor.ne'⟩

theorem invariant_of_eq {a : Int} (unsigned : 0 ≤ a) (positive : 0 < m) :
    SyncSwap.invariant a m m = .ok (2 * m) := by
  unfold SyncSwap.invariant
  dsimp only
  rw [← two_mul, if_neg (by omega)]
  exact Newton.settle_of_fixed (invariantStep_of_eq unsigned positive)

end SyncSwap

namespace Crypto

theorem descending_replicate (n : Nat) (m : Int) :
    descending (List.replicate n m) = List.replicate n m := by
  rw [descending_eq]
  exact List.Pairwise.insertionSort_eq (List.pairwise_replicate.mpr (.inr le_rfl))

theorem geometricMean_replicate (positive : 0 < m) :
    geometricMean (List.replicate (n + 1) m) = .ok m := by
  have ratio : reduceBy m Fixed.one (List.replicate (n + 1) m) = .ok Fixed.one :=
    reduceBy_of_eq positive.ne' fun _ member => List.eq_of_mem_replicate member
  have divisor : (0 : Int) < (n + 1 : Nat) * Fixed.one :=
    mul_pos (Int.natCast_pos.mpr n.succ_pos) Fixed.one_pos
  have next : Priced.bareQuotient (m * (((n + 1 : Nat) - 1) * Fixed.one + Fixed.one))
      ((n + 1 : Nat) * Fixed.one) = .ok m := by
    rw [Priced.bareQuotient_eq_ok]
    refine ⟨divisor.ne', ?_⟩
    rw [show (((n + 1 : Nat) : Int) - 1) * Fixed.one + Fixed.one = (n + 1 : Nat) * Fixed.one by ring]
    exact Int.mul_fdiv_cancel _ divisor.ne'
  apply Newton.run_of_ends
  unfold meanStep
  dsimp only
  rw [ratio, Priced.ok_bind, List.length_replicate, next, Priced.ok_bind]
  simp [absDiff]

theorem requireSafeBalances_replicate (low : pow10 9 ≤ m) (high : m ≤ pow10 33) :
    requireSafeBalances (List.replicate (n + 1) m) = .ok () := by
  have positive : 0 < m := lt_of_lt_of_le (by decide) low
  rw [List.replicate_succ, requireSafeBalances, Priced.require, if_pos (by simp [low, high]),
    Priced.ok_bind]
  apply Priced.forM_of_passes
  intro x member
  rw [List.eq_of_mem_replicate member,
    Priced.bareQuotient_eq_ok.mpr ⟨positive.ne', Int.mul_fdiv_cancel_left _ positive.ne'⟩]
  decide

theorem requireSafeParts_replicate {d : Int} (part : isSafePart ((m * Fixed.one).fdiv d))
    (nonzero : d ≠ 0) : requireSafeParts d (List.replicate n m) = .ok () := by
  apply Priced.forM_of_passes
  intro x member
  rw [List.eq_of_mem_replicate member, Priced.quotient_eq_ok.mpr ⟨nonzero, rfl⟩, Priced.ok_bind, part]
  rfl

theorem exists_firstCoefficient {shape : Shape} {d gap : Int} (ann : 0 < shape.ann)
    (gamma : 0 < shape.gamma) (invariant : 0 ≤ d) (apart : 0 ≤ gap) :
    ∃ coefficient, firstCoefficient shape d gap = .ok coefficient ∧ 0 ≤ coefficient := by
  have scaled : 0 ≤ (Fixed.one * d).fdiv shape.gamma :=
    Int.fdiv_nonneg (mul_nonneg Fixed.one_pos.le invariant) gamma.le
  have spread : 0 ≤ ((Fixed.one * d).fdiv shape.gamma * gap).fdiv shape.gamma :=
    Int.fdiv_nonneg (mul_nonneg scaled apart) gamma.le
  simp only [firstCoefficient, Priced.bind_eq_ok, Priced.quotient_eq_ok]
  refine ⟨_, ⟨_, ⟨gamma.ne', rfl⟩, _, ⟨gamma.ne', rfl⟩, ann.ne', rfl⟩, ?_⟩
  exact Int.fdiv_nonneg (mul_nonneg (mul_nonneg spread apart) (by decide)) ann.le

/-- At the balanced point both corrections vanish and the two parts of the step differ by the
invariant. -/
theorem invariantStep_replicate {shape : Shape} (count : 0 < n) (positive : 0 < m)
    (ann : 0 < shape.ann) (gamma : 0 < shape.gamma) :
    Crypto.invariantStep shape (List.replicate n m) (n * m) (n * m) = .ok (n * m, true) := by
  have coins : (0 : Int) < n := Int.natCast_pos.mpr count
  have unit : 0 < Fixed.one := Fixed.one_pos
  generalize same : (n * m : Int) = d
  have sum : 0 < d := same ▸ mul_pos coins positive
  have k0 : reduceBy d Fixed.one ((List.replicate n m).map (· * (n : Int))) = .ok Fixed.one := by
    apply reduceBy_of_eq sum.ne'
    intro factor member
    obtain ⟨x, held, rfl⟩ := List.mem_map.mp member
    rw [List.eq_of_mem_replicate held, ← same, mul_comm]
  have gap : gammaGap shape.gamma Fixed.one = shape.gamma + 1 := by
    unfold gammaGap
    dsimp only
    rw [if_pos (by omega)]
    omega
  have apart : 0 < shape.gamma + 1 := by omega
  obtain ⟨mul1, computed, nonneg⟩ := exists_firstCoefficient ann gamma sum.le apart.le
  have slope : 0 < d + (mul1 * n).fdiv Fixed.one := by
    have := Int.fdiv_nonneg (mul_nonneg nonneg coins.le) unit.le
    omega
  generalize spread : (mul1 * n).fdiv Fixed.one = stretch at slope
  have plus : d * (d + stretch + d) / (d + stretch) = d + d * d / (d + stretch) := by
    rw [mul_add, Int.add_comm, Int.add_mul_ediv_right _ _ slope.ne', add_comm]
  unfold Crypto.invariantStep euclideanQuotient
  dsimp only
  rw [List.length_replicate, k0, Priced.ok_bind, gap, computed, Priced.ok_bind,
    Priced.quotient_eq_ok.mpr ⟨apart.ne', rfl⟩, Priced.ok_bind,
    Priced.quotient_eq_ok.mpr ⟨unit.ne', spread⟩, Priced.ok_bind]
  generalize (Fixed.one * 2 * n * Fixed.one).fdiv (shape.gamma + 1) = mul2
  rw [show d + (d * mul2).fdiv Fixed.one + stretch - (mul2 * d).fdiv Fixed.one = d + stretch by
    rw [mul_comm d mul2]; ring]
  simp only [if_neg slope.ne', lt_irrefl, if_false, Priced.ok_bind, sub_self, mul_zero]
  rw [Priced.quotient_eq_ok.mpr ⟨unit.ne', Int.zero_fdiv _⟩, Priced.ok_bind, sub_zero, plus,
    if_pos (by omega), add_sub_cancel_right]
  simp [absDiff, pow10]

theorem coins_of_limits {bounds : Limits} (limited : limits n = .ok bounds) : n = 2 ∨ n = 3 := by
  unfold limits at limited
  split at limited
  · exact .inl rfl
  · exact .inr rfl
  · simp at limited

theorem isSafePart_replicate {bounds : Limits} (limited : limits n = .ok bounds)
    (positive : 0 < m) : isSafePart ((m * Fixed.one).fdiv (n * m)) := by
  rw [mul_comm, Int.mul_fdiv_mul_of_pos_left _ _ positive]
  rcases coins_of_limits limited with rfl | rfl <;> decide

theorem newtonD_replicate {shape : Shape} {bounds : Limits} (limited : limits n = .ok bounds)
    (ann : 0 < shape.ann) (least : minGamma ≤ shape.gamma) (most : shape.gamma ≤ bounds.maxGamma)
    (low : pow10 9 ≤ m) (high : m ≤ pow10 33) :
    newtonD shape (List.replicate n m) = .ok (n * m) := by
  have positive : 0 < m := lt_of_lt_of_le (by decide) low
  have gamma : 0 < shape.gamma := lt_of_lt_of_le (by decide) least
  obtain ⟨others, rfl⟩ : ∃ others, n = others + 1 := by
    rcases coins_of_limits limited with rfl | rfl <;> exact ⟨_, rfl⟩
  have sum : (0 : Int) < (others + 1 : Nat) * m :=
    mul_pos (Int.natCast_pos.mpr others.succ_pos) positive
  have settled : Newton.run
      (Crypto.invariantStep shape (List.replicate (others + 1) m) ((others + 1 : Nat) * m))
      .dDoesNotConverge steps ((others + 1 : Nat) * m) = .ok ((others + 1 : Nat) * m) :=
    Newton.run_of_ends (invariantStep_replicate others.succ_pos positive ann gamma)
  unfold newtonD
  dsimp only
  rw [List.length_replicate, limited, Priced.ok_bind, Limits.requireGamma, Priced.require,
    if_pos (by simp [least, most]), Priced.ok_bind, descending_replicate,
    requireSafeBalances_replicate low high, Priced.ok_bind, geometricMean_replicate positive,
    Priced.ok_bind, total_replicate, List.length_replicate, settled, Priced.ok_bind,
    requireSafeParts_replicate (isSafePart_replicate limited positive) sum.ne', Priced.ok_bind]

end Crypto

/-- Equal balances have exactly their sum as invariant, in each of the four iterations. -/
theorem equal_balances_have_their_sum :
    (∀ (curve : Stable.Curve) (n : Nat) (m : Int), curve.offset = false → 0 ≤ curve.amp →
      0 < curve.precision → 0 < m → curve.invariant (List.replicate n m) = .ok (n * m)) ∧
    (∀ (amp : Int) (n : Nat) (m : Int), 0 ≤ amp → 0 < m →
      Composable.invariant amp (List.replicate n m) = .ok (n * m)) ∧
    (∀ a m : Int, 0 ≤ a → 0 < m → SyncSwap.invariant a m m = .ok (2 * m)) ∧
    ∀ (shape : Crypto.Shape) (n : Nat) (bounds : Crypto.Limits) (m : Int),
      Crypto.limits n = .ok bounds → 0 < shape.ann → Crypto.minGamma ≤ shape.gamma →
      shape.gamma ≤ bounds.maxGamma → pow10 9 ≤ m → m ≤ pow10 33 →
      Crypto.newtonD shape (List.replicate n m) = .ok (n * m) := by
  refine ⟨?_, ?_, ?_, ?_⟩
  · intro curve n m plain amp precision positive
    exact Stable.Curve.invariant_replicate plain amp precision positive
  · intro amp n m unsigned positive
    exact Composable.invariant_replicate unsigned positive
  · intro a m unsigned positive
    exact SyncSwap.invariant_of_eq unsigned positive
  · intro shape n bounds m limited ann least most low high
    exact Crypto.newtonD_replicate limited ann least most low high

/-- Five equal balances without amplification, four and two with it, and the ends of the range of three
balances of a crypto pool. -/
theorem equal_balances_in_samples :
    (⟨0, 100, false⟩ : Stable.Curve).invariant (List.replicate 5 7) = .ok (5 * 7) ∧
      Composable.invariant 200000 (List.replicate 4 (10 ^ 18)) = .ok (4 * 10 ^ 18) ∧
      SyncSwap.invariant 1000 (10 ^ 18) (10 ^ 18) = .ok (2 * 10 ^ 18) ∧
      Crypto.limits 3 = .ok ⟨2700, 270000000, 5 * pow10 16⟩ ∧
      Crypto.newtonD ⟨1, pow10 10⟩ (List.replicate 3 (pow10 9)) = .ok (3 * pow10 9) ∧
      Crypto.newtonD ⟨2700, 5 * pow10 16⟩ (List.replicate 3 (pow10 33)) = .ok (3 * pow10 33) := by
  have limited : Crypto.limits 3 = .ok ⟨2700, 270000000, 5 * pow10 16⟩ := rfl
  exact ⟨equal_balances_have_their_sum.1 _ 5 7 rfl (by decide) (by decide) (by decide),
    equal_balances_have_their_sum.2.1 200000 4 _ (by decide) (by decide),
    equal_balances_have_their_sum.2.2.1 1000 _ (by decide) (by decide),
    limited,
    equal_balances_have_their_sum.2.2.2 _ 3 _ (pow10 9) limited (by decide) (by decide)
      (by decide) (by decide) (by decide),
    equal_balances_have_their_sum.2.2.2 _ 3 _ (pow10 33) limited (by decide) (by decide)
      (by decide) (by decide) (by decide)⟩

end Amm
