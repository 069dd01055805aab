import Amm.Proofs.Crypto.KeptPrices
import Amm.Proofs.Rounding
import Mathlib.Tactic.Ring

/-!
The moving average of the prices. Its weight is a half to a power. A whole power is a shift; the rest
is a binomial series whose terms at least halve from one to the next, so that the series ends within
its steps and its sum stays between nothing and one. An average with such a weight lies between the
old average and the last price, also after it has been kept.
-/

namespace Amm
namespace Crypto

/-- The term of the series after `term`, at a place `k` past the first. From there on all terms are
taken off. -/
def halfTerm (x k term : Int) : Int :=
  (term * (((k - 1) * Fixed.one - x) * (5 * pow10 17)).fdiv Fixed.one).fdiv (k * Fixed.one)

section
variable {x precision k term sum : Int}

theorem halfTerm_nonneg (part : x < Fixed.one) (later : 2 ≤ k) (positive : 0 ≤ term) :
    0 ≤ halfTerm x k term := by
  have distance : 0 ≤ (k - 1) * Fixed.one - x := by
    have := mul_le_mul_of_nonneg_right (show 1 ≤ k - 1 by omega) Fixed.one_pos.le
    omega
  have factor : 0 ≤ (((k - 1) * Fixed.one - x) * (5 * pow10 17)).fdiv Fixed.one :=
    Int.fdiv_nonneg (mul_nonneg distance (by decide)) Fixed.one_pos.le
  exact Int.fdiv_nonneg (mul_nonneg positive factor)
    (mul_nonneg (by omega) Fixed.one_pos.le)

/-- A term is not more than half of the one before it. -/
theorem two_mul_halfTerm_le (positive : 0 < x) (later : 2 ≤ k) (unsigned : 0 ≤ term) :
    2 * halfTerm x k term ≤ term := by
  have whole : Fixed.one = 2 * (5 * pow10 17) := by decide
  have divisor : 0 < k * Fixed.one := mul_pos (by omega) Fixed.one_pos
  let factor := (((k - 1) * Fixed.one - x) * (5 * pow10 17)).fdiv Fixed.one
  have half : 2 * factor ≤ k * Fixed.one := by
    have floor : factor * Fixed.one ≤ ((k - 1) * Fixed.one - x) * (5 * pow10 17) :=
      (le_fdiv_iff Fixed.one_pos).mp le_rfl
    have twice : 2 * factor * (5 * pow10 17) ≤ ((k - 1) * Fixed.one - x) * (5 * pow10 17) := by
      calc 2 * factor * (5 * pow10 17) = factor * Fixed.one := by rw [whole]; ring
        _ ≤ _ := floor
    have below := le_of_mul_le_mul_right twice (by decide)
    have := Fixed.one_pos
    linarith
  have floor : halfTerm x k term * (k * Fixed.one) ≤ term * factor := (le_fdiv_iff divisor).mp le_rfl
  refine le_of_mul_le_mul_right ?_ divisor
  calc 2 * halfTerm x k term * (k * Fixed.one)
      = 2 * (halfTerm x k term * (k * Fixed.one)) := by ring
    _ ≤ 2 * (term * factor) := by linarith
    _ = term * (2 * factor) := by ring
    _ ≤ term * (k * Fixed.one) := mul_le_mul_of_nonneg_left half unsigned

theorem halfSeries_succ (steps : Nat) (part : x < Fixed.one) (later : 2 ≤ k) :
    halfSeries x precision (steps + 1) k term sum true =
      if halfTerm x k term < precision then .ok (sum - halfTerm x k term)
      else
        halfSeries x precision steps (k + 1) (halfTerm x k term) (sum - halfTerm x k term) true := by
  have past : ¬(k - 1) * Fixed.one < x := by
    have := mul_le_mul_of_nonneg_right (show 1 ≤ k - 1 by omega) Fixed.one_pos.le
    omega
  have nonzero : k * Fixed.one ≠ 0 := mul_ne_zero (by omega) Fixed.one_pos.ne'
  rw [halfSeries]
  simp only [if_neg past, if_true, Priced.bareQuotient, if_neg nonzero, Priced.ok_bind]
  rfl

/-- The series from a later term on. What is left of the sum always covers the last term taken off,
and the term is below the precision when the steps end. -/
theorem halfSeries_tail (steps : Nat) (positive : 0 < x) (part : x < Fixed.one) (later : 2 ≤ k)
    (unsigned : 0 ≤ term) (covered : term ≤ sum) (small : term < precision * 2 ^ (steps + 1)) :
    ∃ result, halfSeries x precision (steps + 1) k term sum true = .ok result ∧
      0 ≤ result ∧ result ≤ sum := by
  induction steps generalizing k term sum with
  | zero =>
      have halved := two_mul_halfTerm_le positive later unsigned
      have nonneg := halfTerm_nonneg part later unsigned
      rw [halfSeries_succ 0 part later, if_pos (by omega)]
      exact ⟨_, rfl, by omega, by omega⟩
  | succ steps ih =>
      have halved := two_mul_halfTerm_le positive later unsigned
      have nonneg := halfTerm_nonneg part later unsigned
      rw [halfSeries_succ (steps + 1) part later]
      split
      · exact ⟨_, rfl, by omega, by omega⟩
      · have next : halfTerm x k term < precision * 2 ^ (steps + 1) := by
          rw [pow_succ _ (steps + 1), ← mul_assoc] at small
          omega
        have left : halfTerm x k term ≤ sum - halfTerm x k term := by omega
        obtain ⟨result, sums, low, high⟩ := ih (show 2 ≤ k + 1 by omega) nonneg left next
        exact ⟨result, sums, low, by omega⟩

/-- The series for a part of one ends within its steps, between nothing and one. -/
theorem halfSeries_bounded (positive : 0 < x) (part : x < Fixed.one) (precise : 1 ≤ precision) :
    ∃ result, halfSeries x precision steps 1 Fixed.one Fixed.one false = .ok result ∧
      0 ≤ result ∧ result ≤ Fixed.one := by
  have half : (Fixed.one * (x * (5 * pow10 17)).fdiv Fixed.one).fdiv Fixed.one = x / 2 := by
    rw [Int.mul_fdiv_cancel_left _ Fixed.one_pos.ne', show Fixed.one = 2 * (5 * pow10 17) by decide,
      Int.mul_fdiv_mul_of_pos_left _ _ (by decide), Int.fdiv_eq_ediv_of_nonneg _ (by decide)]
  have first : halfSeries x precision steps 1 Fixed.one Fixed.one false =
      if x / 2 < precision then .ok (Fixed.one - x / 2)
      else halfSeries x precision 254 2 (x / 2) (Fixed.one - x / 2) true := by
    rw [steps, halfSeries]
    simp only [sub_self, zero_mul, positive, if_true, sub_zero, one_mul, Bool.not_false,
      Priced.bareQuotient, if_neg Fixed.one_pos.ne', Priced.ok_bind, half]
    rfl
  rw [first]
  split
  · exact ⟨_, rfl, by omega, by omega⟩
  · have small : x / 2 < precision * 2 ^ 254 := by
      have : Fixed.one ≤ 2 ^ 254 := by decide
      omega
    obtain ⟨result, sums, low, high⟩ := halfSeries_tail 253 positive part (le_refl 2)
      (show 0 ≤ x / 2 by omega) (show x / 2 ≤ Fixed.one - x / 2 by omega) small
    exact ⟨result, sums, low, by omega⟩

end

/-- A half to a power that is not negative is found, between nothing and one. -/
theorem halfpow_bounded {power precision : Int} (unsigned : 0 ≤ power) (precise : 1 ≤ precision) :
    ∃ weight, halfpow power precision = .ok weight ∧ 0 ≤ weight ∧ weight ≤ Fixed.one := by
  have whole : 0 ≤ power.fdiv Fixed.one := Int.fdiv_nonneg unsigned Fixed.one_pos.le
  have floor := (le_fdiv_iff Fixed.one_pos).mp (le_refl (power.fdiv Fixed.one))
  have above := (fdiv_lt_iff Fixed.one_pos).mp (lt_add_one (power.fdiv Fixed.one))
  have shifted : 0 ≤ Fixed.one >>> (power.fdiv Fixed.one).toNat ∧
      Fixed.one >>> (power.fdiv Fixed.one).toNat ≤ Fixed.one := by
    rw [Int.shiftRight_eq_div_pow]
    exact ⟨Int.ediv_nonneg Fixed.one_pos.le (Int.natCast_nonneg _),
      Int.ediv_le_self _ Fixed.one_pos.le⟩
  simp only [halfpow, whole, decide_true, Priced.require, if_true, Priced.ok_bind]
  split
  · exact ⟨0, rfl, le_refl 0, Fixed.one_pos.le⟩
  · split
    · exact ⟨_, rfl, shifted⟩
    · rename_i fraction
      obtain ⟨sum, sums, low, high⟩ := halfSeries_bounded
        (show 0 < power - power.fdiv Fixed.one * Fixed.one by omega)
        (show power - power.fdiv Fixed.one * Fixed.one < Fixed.one by linarith) precise
      refine ⟨_, by rw [sums, Priced.ok_bind],
        Int.fdiv_nonneg (mul_nonneg shifted.1 low) Fixed.one_pos.le, ?_⟩
      rw [← Int.lt_add_one_iff, fdiv_lt_iff Fixed.one_pos]
      calc Fixed.one >>> (power.fdiv Fixed.one).toNat * sum
          ≤ Fixed.one * Fixed.one := mul_le_mul shifted.2 high low Fixed.one_pos.le
        _ < (Fixed.one + 1) * Fixed.one := by decide

end Crypto

namespace CryptoPool

open Crypto

/-- A price from the lower of two prices to the higher. -/
def Between (first second price : Int) : Prop :=
  min first second ≤ price ∧ price ≤ max first second

instance (first second price : Int) : Decidable (Between first second price) :=
  inferInstanceAs (Decidable (min first second ≤ price ∧ price ≤ max first second))

theorem between_left (first second : Int) : Between first second first :=
  ⟨min_le_left _ _, le_max_left _ _⟩

theorem Between.fits {first second price : Int} (between : Between first second price)
    (left : Lanes.Fits first) (right : Lanes.Fits second) : Lanes.Fits price :=
  ⟨(le_min left.1 right.1).trans between.1, between.2.trans_lt (max_lt left.2 right.2)⟩

theorem averaged_between {alpha : Int} (oracle last : Int) (unsigned : 0 ≤ alpha)
    (part : alpha ≤ Fixed.one) : Between oracle last (averaged alpha oracle last) := by
  have rest : 0 ≤ Fixed.one - alpha := by omega
  constructor
  · rw [averaged, le_fdiv_iff Fixed.one_pos]
    calc min oracle last * Fixed.one
        = min oracle last * (Fixed.one - alpha) + min oracle last * alpha := by ring
      _ ≤ last * (Fixed.one - alpha) + oracle * alpha :=
          add_le_add (mul_le_mul_of_nonneg_right (min_le_right _ _) rest)
            (mul_le_mul_of_nonneg_right (min_le_left _ _) unsigned)
  · rw [averaged, fdiv_le_iff Fixed.one_pos]
    calc last * (Fixed.one - alpha) + oracle * alpha
        ≤ max oracle last * (Fixed.one - alpha) + max oracle last * alpha :=
          add_le_add (mul_le_mul_of_nonneg_right (le_max_right _ _) rest)
            (mul_le_mul_of_nonneg_right (le_max_left _ _) unsigned)
      _ = max oracle last * Fixed.one := by ring
      _ < (max oracle last + 1) * Fixed.one :=
          mul_lt_mul_of_pos_right (lt_add_one _) Fixed.one_pos

variable {pool next : CryptoPool} {now : Time} {oracle : List Int}

/-- The prices of a moving average, one for each coin beside the first, lie between the average and
the last prices that a pool has on record. -/
def AveragesRecords (pool : CryptoPool) (oracle : List Int) : Prop :=
  List.Forall₂ (fun recorded price => Between recorded.1 recorded.2 price)
    (pool.priceOracle.zip pool.lastPrices) oracle

theorem averagesRecords_map {average : Int × Int → Int}
    (between : ∀ recorded, Between recorded.1 recorded.2 (average recorded)) :
    pool.AveragesRecords ((pool.priceOracle.zip pool.lastPrices).map average) :=
  List.forall₂_map_right_iff.mpr (List.forall₂_same.mpr fun recorded _ => between recorded)

theorem averagesRecords_of_oracleAt (shaped : pool.Shaped) (averages : 0 < pool.maHalfTime)
    (averaged : pool.oracleAt now = .ok oracle) : pool.AveragesRecords oracle := by
  unfold oracleAt at averaged
  split at averaged
  · rename_i later
    simp only [Priced.bind_eq_ok, Time.since_eq_ok, Priced.quotient_eq_ok, Except.ok.injEq]
      at averaged
    obtain ⟨_, ⟨-, rfl⟩, power, ⟨-, rfl⟩, alpha, weighed, rfl⟩ := averaged
    have passed : 0 < now.toInt - pool.lastPricesTime.toInt := Time.toInt_sub_pos.mpr later
    have elapsed : 0 ≤ ((now.toInt - pool.lastPricesTime.toInt) * Fixed.one).fdiv pool.maHalfTime :=
      Int.fdiv_nonneg (mul_nonneg passed.le Fixed.one_pos.le) averages.le
    obtain ⟨weight, found, unsigned, part⟩ :=
      halfpow_bounded elapsed (show 1 ≤ pow10 10 by decide)
    obtain rfl : alpha = weight := Except.ok.inj (weighed.symm.trans found)
    rw [← List.map_uncurry_zip_eq_zipWith]
    exact averagesRecords_map fun recorded => averaged_between _ _ unsigned part
  · obtain rfl := Except.ok.inj averaged
    have count : pool.priceOracle.length ≤ pool.lastPrices.length := by
      rw [shaped.priceOracle, shaped.lastPrices]
    have same : (pool.priceOracle.zip pool.lastPrices).map Prod.fst = pool.priceOracle :=
      List.map_fst_zip count
    have kept : pool.AveragesRecords ((pool.priceOracle.zip pool.lastPrices).map Prod.fst) :=
      averagesRecords_map fun recorded => between_left recorded.1 recorded.2
    exact same ▸ kept

theorem AveragesRecords.length_eq (averages : pool.AveragesRecords oracle) (shaped : pool.Shaped) :
    oracle.length = pool.layout.coins - 1 := by
  rw [← List.Forall₂.length_eq averages, List.length_zip, shaped.priceOracle, shaped.lastPrices,
    min_self]

/-- Prices between pairs of prices that fit their lanes fit them too. -/
theorem holds_of_between {layout : Layout} {first second prices : List Int}
    (between : List.Forall₂ (fun recorded price => Between recorded.1 recorded.2 price)
      (first.zip second) prices)
    (left : layout.Holds first) (right : layout.Holds second) : layout.Holds prices := by
  intro triple price member
  obtain ⟨k, bound, rfl⟩ := List.mem_iff_getElem.mp member
  have recordedBound : k < (first.zip second).length := by
    rwa [List.Forall₂.length_eq between]
  obtain ⟨inFirst, inSecond⟩ := List.of_mem_zip (List.getElem_mem recordedBound)
  exact (List.Forall₂.get between recordedBound bound).fits (left triple _ inFirst)
    (right triple _ inSecond)

/-- Averages of prices that fit their lanes read back as they were found. -/
theorem AveragesRecords.kept_eq (averages : pool.AveragesRecords oracle) (shaped : pool.Shaped)
    (inRange : pool.layout.Holds (pool.priceOracle ++ pool.lastPrices)) :
    pool.layout.kept oracle = oracle := by
  obtain ⟨oldAverages, oldLast⟩ := Layout.holds_append.mp inRange
  exact Layout.kept_of_fits (averages.length_eq shaped)
    (holds_of_between averages oldAverages oldLast)

/-- The weight of the moving average is found for every power that is not negative. Every operation on
a pool that holds something brings the time of the last prices up to its own. If that is later, each
price of the moving average ends between its old value and the old last price. Otherwise none
moves. -/
theorem moving_average_stays_between :
    (∀ power, 0 ≤ power → ∃ weight, halfpow power (pow10 10) = .ok weight ∧
      0 ≤ weight ∧ weight ≤ Fixed.one) ∧
      ∀ (pool next : CryptoPool) (operation : Operation) (now : Time), pool.Shaped → 0 < pool.d →
        0 < pool.maHalfTime → pool.layout.Holds (pool.priceOracle ++ pool.lastPrices) →
        operation.perform pool now = .ok next →
        next.lastPricesTime = max pool.lastPricesTime now ∧
          pool.AveragesRecords next.priceOracle ∧
          (now ≤ pool.lastPricesTime → next.priceOracle = pool.priceOracle) := by
  refine ⟨fun power unsigned => halfpow_bounded unsigned (by decide), ?_⟩
  intro pool next operation now shaped held averages inRange succeeds
  obtain ⟨settlement, settles, books⟩ := operation.perform_eq_ok held succeeds
  obtain ⟨reserves, supply, d, ramp, frame⟩ := operation.settle_frame settles
  obtain ⟨seen, profit, observed, -, ends⟩ := Settlement.book_eq_ok books
  obtain ⟨found, -, -⟩ := Settlement.observe_eq_ok observed
  have averaged : pool.oracleAt now = .ok seen.oracle := by
    rw [frame] at found
    exact found
  have records : pool.AveragesRecords seen.oracle :=
    averagesRecords_of_oracleAt shaped averages averaged
  have time := ends.lastPricesTime_eq
  have oracle := ends.priceOracle_eq
  rw [frame] at time oracle
  refine ⟨time, ?_, fun early => ?_⟩
  · rw [oracle]
    split
    · rwa [records.kept_eq shaped inRange]
    · rename_i early
      rw [oracleAt, if_neg early] at averaged
      exact Except.ok.inj averaged ▸ records
  · rw [oracle, if_neg (not_lt.mpr early)]

/-- A swap of two coins and a withdrawal from three, each one half-time after the last prices. -/
theorem moving_average_halfway_in_samples :
    (∃ next, (Operation.trade (.swap 0 1 10000000000000000000000)).perform samplePair 600 =
        .ok next ∧ next.lastPricesTime = 600 ∧ samplePair.AveragesRecords next.priceOracle ∧
        next.priceOracle = [1515000000000000000000]) ∧
      ∃ next, (Operation.withdraw 100000000000000000000 2).perform sampleTriple 600 = .ok next ∧
        next.lastPricesTime = 600 ∧ sampleTriple.AveragesRecords next.priceOracle ∧
        next.priceOracle = [30250000000000000000000, 2007500000000000000000] := by
  constructor
  · let swap := Operation.trade (.swap 0 1 10000000000000000000000)
    obtain ⟨next, succeeds, oracle⟩ := Priced.map_eq_ok.mp (show
      (swap.perform samplePair 600).map CryptoPool.priceOracle = .ok [1515000000000000000000]
      by decide +kernel)
    obtain ⟨time, averaged, -⟩ := moving_average_stays_between.2 samplePair next swap 600
      ⟨rfl, rfl, rfl⟩ (by decide) (by decide) (by decide) succeeds
    exact ⟨next, succeeds, time, averaged, oracle⟩
  · let withdraw := Operation.withdraw 100000000000000000000 2
    obtain ⟨next, succeeds, oracle⟩ := Priced.map_eq_ok.mp (show
      (withdraw.perform sampleTriple 600).map CryptoPool.priceOracle =
        .ok [30250000000000000000000, 2007500000000000000000]
      by decide +kernel)
    obtain ⟨time, averaged, -⟩ := moving_average_stays_between.2 sampleTriple next withdraw 600
      ⟨rfl, rfl, rfl⟩ (by decide) (by decide) (by decide) succeeds
    exact ⟨next, succeeds, time, averaged, oracle⟩

end CryptoPool
end Amm
