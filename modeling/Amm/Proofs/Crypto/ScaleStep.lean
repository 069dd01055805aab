import Amm.Proofs.Crypto.Average
import Amm.Proofs.Crypto.SquareRoot

/-!
How far a step of the scale goes. A step is taken only if its square is below the squared deviation of
the moving average, but it is weighed against the root of what is left of the deviation after the part
below one unit has been cut off. If the square of the step lies in the part that was cut off, then the
step is longer than the distance it is weighed against, and it carries a price past its average.
-/

namespace Amm
namespace CryptoPool

open Crypto

/-- A price after a step of the given length toward its average, where `norm` would be the whole way. -/
def movedPrice (step norm average price : Int) : Int :=
  (price * (norm - step) + step * average).fdiv norm

/-- Whether the step ends before the average or on it. A step longer than the way does so for a rising
price alone, where less than one unit is too much and is rounded off. -/
def StopsShort (step norm average price : Int) : Prop :=
  step ≤ norm ∨ price ≤ average ∧ (average - price) * (step - norm) < norm

section
variable {step norm average price : Int} (some : 0 < norm)
include some

theorem price_le_movedPrice (unsigned : 0 ≤ step) (rises : price ≤ average) :
    price ≤ movedPrice step norm average price := by
  have way : 0 ≤ step * (average - price) := mul_nonneg unsigned (by omega)
  rw [movedPrice, le_fdiv_iff some]
  linarith

theorem movedPrice_le_price (unsigned : 0 ≤ step) (falls : average ≤ price) :
    movedPrice step norm average price ≤ price := by
  have way : 0 ≤ step * (price - average) := mul_nonneg unsigned (by omega)
  rw [movedPrice, fdiv_le_iff some]
  linarith

theorem movedPrice_le_average_iff :
    movedPrice step norm average price ≤ average ↔ (average - price) * (step - norm) < norm := by
  rw [movedPrice, fdiv_le_iff some]
  exact ⟨fun below => by linarith, fun below => by linarith⟩

theorem average_le_movedPrice_iff (falls : average < price) :
    average ≤ movedPrice step norm average price ↔ step ≤ norm := by
  have apart : 0 < price - average := by omega
  rw [movedPrice, le_fdiv_iff some, ← sub_nonneg (b := step), ← mul_nonneg_iff_of_pos_left apart]
  exact ⟨fun above => by linarith, fun above => by linarith⟩

theorem between_movedPrice_iff (unsigned : 0 ≤ step) :
    Between average price (movedPrice step norm average price) ↔
      StopsShort step norm average price := by
  -- The quotient is rounded down, so any excess shows for a falling price.
  rcases lt_or_ge average price with falls | rises
  · rw [Between, min_eq_left falls.le, max_eq_right falls.le, average_le_movedPrice_iff some falls,
      StopsShort, and_iff_left (movedPrice_le_price some unsigned falls.le)]
    exact ⟨.inl, fun short => short.resolve_right fun rises => by omega⟩
  · rw [Between, min_eq_right rises, max_eq_left rises, movedPrice_le_average_iff some, StopsShort,
      and_iff_right (price_le_movedPrice some unsigned rises)]
    refine ⟨fun below => .inr ⟨rises, below⟩, fun short => ?_⟩
    rcases short with within | ⟨-, below⟩
    · have back : 0 ≤ (average - price) * (norm - step) := mul_nonneg (by omega) (by omega)
      linarith
    · exact below

end

/-- What a step of the scale is checked and weighed against: the squared deviation of the moving average
from the scale, and the root of its whole units. -/
structure Distance (step : Int) (oracle scale : List Int) (deviation norm : Int) : Prop where
  measured : squaredDeviation oracle scale = .ok deviation
  checked : step * step < deviation
  root : FloorRoot 0 (deviation.fdiv Fixed.one * Fixed.one) norm
  some : 0 < norm

namespace Distance

variable {step deviation norm : Int} {oracle scale : List Int}
  (distance : Distance step oracle scale deviation norm)
include distance

/-- The step fits into the way exactly if its square fits into the whole units of the deviation. -/
theorem step_le_iff (unsigned : 0 ≤ step) :
    step ≤ norm ↔ step * step ≤ deviation.fdiv Fixed.one * Fixed.one := by
  constructor
  · intro within
    exact (mul_self_le_mul_self unsigned within).trans distance.root.square_le
  · intro whole
    have start := distance.some
    have below : step < norm + 1 :=
      lt_of_mul_self_lt_mul_self₀ (by omega) (whole.trans_lt distance.root.lt_square)
    omega

/-- A step whose square is a number of whole units always fits. -/
theorem step_le_of_dvd (unsigned : 0 ≤ step) (even : pow10 9 ∣ step) : step ≤ norm := by
  rw [distance.step_le_iff unsigned]
  obtain ⟨units, same⟩ := even
  have square : step * step = units * units * Fixed.one := by
    have unit : Fixed.one = pow10 9 * pow10 9 := by decide
    rw [same, unit]
    ring
  have whole : units * units ≤ deviation.fdiv Fixed.one := by
    rw [le_fdiv_iff Fixed.one_pos, ← square]
    exact distance.checked.le
  rw [square]
  exact mul_le_mul_of_nonneg_right whole Fixed.one_pos.le

/-- The step is too long by no more than the unit that may have been cut off. -/
theorem step_square_lt : step * step < (norm + 1) * (norm + 1) + Fixed.one := by
  have cut := (fdiv_lt_iff Fixed.one_pos).mp (lt_add_one (deviation.fdiv Fixed.one))
  linarith [distance.checked, distance.root.lt_square]

end Distance

/-- Each price lies between the moving average and the price of its coin on the old scale. -/
def MovesToward (oracle old scale : List Int) : Prop :=
  List.Forall₂ (fun recorded price => Between recorded.1 recorded.2 price) (oracle.zip old) scale

/-- Each price lies between the moving average and the old price exactly if the step of its coin stops
short. -/
def StepsAlong (step norm : Int) (oracle old scale : List Int) : Prop :=
  List.Forall₂
    (fun recorded price =>
      Between recorded.1 recorded.2 price ↔ StopsShort step norm recorded.1 recorded.2)
    (oracle.zip old) scale

theorem StepsAlong.movesToward {step norm : Int} {oracle old scale : List Int}
    (steps : StepsAlong step norm oracle old scale) (within : step ≤ norm) :
    MovesToward oracle old scale :=
  steps.imp fun _ _ short => short.mpr (.inl within)

section
variable {pool : CryptoPool} {now : Time} {norm : Int} {oracle scale : List Int}

/-- A half is not raised to a negative power. -/
theorem nonneg_of_halfpow {power precision weight : Int}
    (found : halfpow power precision = .ok weight) : 0 ≤ power := by
  have whole : 0 ≤ power.fdiv Fixed.one := by
    by_contra negative
    have small : ¬59 < power.fdiv Fixed.one := by omega
    simp [halfpow, small, negative, Priced.require] at found
  simpa using (le_fdiv_iff Fixed.one_pos).mp whole

/-- No average is found over a half-time that is not positive. -/
theorem maHalfTime_pos_of_oracleAt (later : pool.lastPricesTime < now)
    (averaged : pool.oracleAt now = .ok oracle) : 0 < pool.maHalfTime := by
  simp only [oracleAt, if_pos later, Priced.bind_eq_ok, Time.since_eq_ok, Priced.quotient_eq_ok]
    at averaged
  obtain ⟨_, ⟨-, rfl⟩, _, ⟨nonzero, rfl⟩, weight, weighed, -⟩ := averaged
  have elapsed : 0 < (now.toInt - pool.lastPricesTime.toInt) * Fixed.one :=
    mul_pos (Time.toInt_sub_pos.mpr later) Fixed.one_pos
  have unsigned := nonneg_of_halfpow weighed
  by_contra negative
  have reversed : 0 < -pool.maHalfTime := by omega
  rw [← Int.neg_fdiv_neg, le_fdiv_iff reversed, zero_mul] at unsigned
  linarith

theorem holds_of_oracleAt (shaped : pool.Shaped)
    (inRange : pool.layout.Holds (pool.priceOracle ++ pool.lastPrices))
    (averaged : pool.oracleAt now = .ok oracle) : pool.layout.Holds oracle := by
  obtain ⟨oldAverages, oldLast⟩ := Layout.holds_append.mp inRange
  by_cases later : pool.lastPricesTime < now
  · have averages := averagesRecords_of_oracleAt shaped (maHalfTime_pos_of_oracleAt later averaged)
      averaged
    exact holds_of_between averages oldAverages oldLast
  · rw [oracleAt, if_neg later] at averaged
    exact Except.ok.inj averaged ▸ oldAverages

theorem BooksPrices.priceOracle_eq {next : CryptoPool} {seen : Observation}
    {taken : Option Adjustment} (booked : pool.BooksPrices next seen taken now)
    (shaped : pool.Shaped) (inRange : pool.layout.Holds (pool.priceOracle ++ pool.lastPrices))
    (averaged : pool.oracleAt now = .ok seen.oracle) : next.priceOracle = seen.oracle := by
  by_cases later : pool.lastPricesTime < now
  · exact (booked.priceOracle later).exact_iff.mpr (holds_of_oracleAt shaped inRange averaged)
  · exact (booked.oracle_stays later).1

theorem movedScale_entries (moved : pool.movedScale norm oracle = .ok scale) :
    List.Forall₂
      (fun recorded price => norm ≠ 0 ∧
        price = movedPrice pool.adjustmentStep norm recorded.1 recorded.2)
      (oracle.zip pool.priceScale) scale :=
  (Priced.mapM_forall₂ moved).imp fun _ _ divided =>
    (Priced.quotient_eq_ok.mp divided).imp_right Eq.symm

/-- A pool has a price beside the first coin, so that the way was a divisor. -/
theorem norm_ne_zero_of_movedScale (shaped : pool.Shaped)
    (count : oracle.length = pool.layout.coins - 1)
    (moved : pool.movedScale norm oracle = .ok scale) : norm ≠ 0 := by
  have some : 0 < (oracle.zip pool.priceScale).length := by
    rw [List.length_zip, count, shaped.priceScale]
    cases pool.layout <;> decide
  have entries := movedScale_entries moved
  exact (entries.get some (entries.length_eq ▸ some)).1

theorem stepsAlong_of_movedScale (some : 0 < norm) (unsigned : 0 ≤ pool.adjustmentStep)
    (moved : pool.movedScale norm oracle = .ok scale) :
    StepsAlong pool.adjustmentStep norm oracle pool.priceScale scale := by
  refine (movedScale_entries moved).imp fun recorded price ⟨_, same⟩ => ?_
  rw [same]
  exact between_movedPrice_iff some unsigned

end

/-- A step that is taken has passed the check, and its way is the root of what was checked, with the
part below one unit cut off. -/
theorem Settlement.distance_of_repeg {settlement : Settlement} {seen : Observation}
    {adjustment : Adjustment} {now : Time} (waits : settlement.pool.Shaped)
    (unsigned : 0 ≤ settlement.pool.adjustmentStep) (observed : settlement.observe now = .ok seen)
    (repegged : settlement.repeg now = .ok (some adjustment)) :
    ∃ deviation norm,
      Distance settlement.pool.adjustmentStep seen.oracle settlement.pool.priceScale deviation norm ∧
      StepsAlong settlement.pool.adjustmentStep norm seen.oracle settlement.pool.priceScale
        adjustment.priceScale := by
  simp only [repeg, observed, Priced.ok_bind, Priced.bind_eq_ok] at repegged
  obtain ⟨profit, -, stepped⟩ := repegged
  unfold step at stepped
  split at stepped
  · obtain ⟨deviation, measured, tried⟩ := Priced.bind_eq_ok.mp stepped
    split at tried
    · simp at tried
    · rename_i far
      simp only [Bool.or_eq_true, decide_eq_true_eq, not_or, not_le] at far
      obtain ⟨norm, _, rooted, moved, -⟩ := adjustment_eq_some tried
      obtain ⟨averaged, -, -⟩ := observe_eq_ok observed
      have whole : 0 ≤ deviation.fdiv Fixed.one :=
        Int.fdiv_nonneg ((mul_self_nonneg _).trans far.1.le) Fixed.one_pos.le
      have root := floorRoot_of_sqrt whole rooted
      -- Nothing keeps the root from being zero but that the step was then refused.
      have nonzero := norm_ne_zero_of_movedScale waits (oracleAt_length waits averaged) moved
      have positive : 0 < norm := lt_of_le_of_ne root.nonneg nonzero.symm
      exact ⟨deviation, norm, ⟨measured, far.1, root, positive⟩,
        stepsAlong_of_movedScale positive unsigned moved⟩
  · simp at stepped

/-- The step of the scale that an operation takes, if it takes one, ends between the old price and the
moving average on record for each coin for which it stops short, and past the average for every other.
It stops short for all of them if its square is not above the whole units of the squared deviation,
which holds for every length that is a multiple of `10 ^ 9`. It is never too long by more than the unit
that may have been cut off. -/
theorem scale_moves_toward_average_iff (pool next : CryptoPool) (operation : Operation) (now : Time)
    (shaped : pool.Shaped) (unsigned : 0 ≤ pool.adjustmentStep)
    (inRange : pool.layout.Holds (pool.priceScale ++ (pool.priceOracle ++ pool.lastPrices)))
    (succeeds : operation.perform pool now = .ok next) :
    (∃ settlement taken, operation.settle pool now = .ok settlement ∧
      settlement.repeg now = .ok taken ∧
      (taken = none → next.priceScale = pool.priceScale) ∧
      ∀ adjustment, taken = some adjustment → ∃ deviation norm,
        Distance pool.adjustmentStep next.priceOracle pool.priceScale deviation norm ∧
        StepsAlong pool.adjustmentStep norm next.priceOracle pool.priceScale
          adjustment.priceScale ∧
        pool.layout.Recorded adjustment.priceScale next.priceScale ∧
        (pool.adjustmentStep ≤ norm → next.priceScale = adjustment.priceScale ∧
          MovesToward next.priceOracle pool.priceScale next.priceScale) ∧
        (pool.adjustmentStep ≤ norm ↔
          pool.adjustmentStep * pool.adjustmentStep ≤ deviation.fdiv Fixed.one * Fixed.one) ∧
        (pow10 9 ∣ pool.adjustmentStep → pool.adjustmentStep ≤ norm) ∧
        pool.adjustmentStep * pool.adjustmentStep < (norm + 1) * (norm + 1) + Fixed.one) ∨
      operation.Opens pool next := by
  obtain ⟨settlement, settles, books⟩ | opens := operation.books_or_opens succeeds
  · left
    obtain ⟨_, _, _, _, frame⟩ := operation.settle_frame settles
    have waits := operation.settle_shaped shaped settles
    obtain ⟨seen, taken, observed, repegged, booked⟩ := settlement.booksPrices waits books
    obtain ⟨oldScale, oldRecords⟩ := Layout.holds_append.mp inRange
    obtain ⟨averaged, -, -⟩ := Settlement.observe_eq_ok observed
    have fits := holds_of_oracleAt waits (by rwa [frame]) averaged
    have oracle := booked.priceOracle_eq waits (by rwa [frame]) averaged
    refine ⟨settlement, taken, settles, repegged, fun stays => ?_, ?_⟩
    · rw [booked.scale_stays stays, frame]
    · rintro adjustment rfl
      obtain ⟨deviation, norm, distance, steps⟩ :=
        Settlement.distance_of_repeg waits (by rwa [frame]) observed repegged
      have recorded := booked.priceScale adjustment rfl
      rw [frame] at distance steps recorded fits
      rw [← oracle] at distance steps fits
      refine ⟨deviation, norm, distance, steps, recorded, fun within => ?_,
        distance.step_le_iff unsigned, distance.step_le_of_dvd unsigned, distance.step_square_lt⟩
      have toward := steps.movesToward within
      have same := recorded.exact_iff.mpr (holds_of_between toward fits oldScale)
      exact ⟨same, same ▸ toward⟩
  · exact .inr opens

/-- The moving average is a little above the scale. The square of the step is below the squared
deviation, but not below its whole units. -/
def overshootingPair : CryptoPool :=
  { samplePair with
    priceOracle := [1500000002115000000000]
    lastPrices := [1500000002115000000000]
    adjustmentStep := 1400000000 }

theorem overshootingPair_swap :
    ∃ next settlement adjustment,
      (Operation.trade (.swap 0 1 10000000000000000000000)).perform overshootingPair 600 =
        .ok next ∧
      (Operation.trade (.swap 0 1 10000000000000000000000)).settle overshootingPair 600 =
        .ok settlement ∧
      settlement.repeg 600 = .ok (some adjustment) ∧
      next.priceOracle = [1500000002115000000000] ∧
      next.priceScale = [1500000002961000000000] := by
  let swap := Operation.trade (.swap 0 1 10000000000000000000000)
  obtain ⟨next, succeeds, shown⟩ := Priced.map_eq_ok.mp (show
    (swap.perform overshootingPair 600).map (fun next => (next.priceOracle, next.priceScale)) =
      .ok ([1500000002115000000000], [1500000002961000000000])
    by decide +kernel)
  obtain ⟨oracle, scale⟩ := Prod.mk.inj shown
  have step : (swap.settle overshootingPair 600 >>= fun settlement =>
      (settlement.repeg 600).map Option.isSome) = .ok true := by
    decide +kernel
  obtain ⟨settlement, settles, rest⟩ := Priced.bind_eq_ok.mp step
  obtain ⟨taken, repegged, some⟩ := Priced.map_eq_ok.mp rest
  obtain ⟨adjustment, rfl⟩ := Option.isSome_iff_exists.mp some
  exact ⟨next, settlement, adjustment, succeeds, settles, repegged, oracle, scale⟩

/-- The distance comes to less than the step, and the swap takes the scale past the average by two
fifths of the way to it. With a step of the usual length another swap stops short. -/
theorem overshootingPair_passes_average :
    (∃ next settlement adjustment deviation norm,
      (Operation.trade (.swap 0 1 10000000000000000000000)).perform overshootingPair 600 =
        .ok next ∧
      (Operation.trade (.swap 0 1 10000000000000000000000)).settle overshootingPair 600 =
        .ok settlement ∧
      settlement.repeg 600 = .ok (some adjustment) ∧
      Distance overshootingPair.adjustmentStep next.priceOracle overshootingPair.priceScale
        deviation norm ∧
      norm < overshootingPair.adjustmentStep ∧
      next.priceOracle = [1500000002115000000000] ∧
      next.priceScale = [1500000002961000000000]) ∧
    ∃ next, (Operation.trade (.swap 0 1 10000000000000000000000)).perform samplePair 600 =
        .ok next ∧
      next.priceScale = [1500219000000000000000] ∧
      MovesToward next.priceOracle samplePair.priceScale next.priceScale := by
  constructor
  · obtain ⟨next, settlement, adjustment, succeeds, settles, repegged, oracle, scale⟩ :=
      overshootingPair_swap
    obtain ⟨_, _, settles', repegged', -, moves⟩ | opens :=
      scale_moves_toward_average_iff overshootingPair next _ 600 ⟨rfl, rfl, rfl⟩ (by decide)
        (by decide) succeeds
    · obtain rfl := Except.ok.inj (settles.symm.trans settles')
      obtain rfl := Except.ok.inj (repegged.symm.trans repegged')
      obtain ⟨deviation, norm, distance, -, -, -, whole, -⟩ := moves adjustment rfl
      have measured : squaredDeviation [1500000002115000000000] overshootingPair.priceScale =
          .ok 1988100000000000000 := by
        decide +kernel
      have same : deviation = 1988100000000000000 := by
        have found := distance.measured
        rw [oracle, measured] at found
        exact (Except.ok.inj found).symm
      refine ⟨next, settlement, adjustment, deviation, norm, succeeds, settles, repegged, distance,
        ?_, oracle, scale⟩
      rw [← not_le, whole, same]
      decide
    · exact absurd (by decide) opens.empty
  · let swap := Operation.trade (.swap 0 1 10000000000000000000000)
    obtain ⟨next, succeeds, scale⟩ := Priced.map_eq_ok.mp (show
      (swap.perform samplePair 600).map CryptoPool.priceScale = .ok [1500219000000000000000]
      by decide +kernel)
    obtain ⟨_, taken, settles, repegged, stays, moves⟩ | opens :=
      scale_moves_toward_average_iff samplePair next swap 600 ⟨rfl, rfl, rfl⟩ (by decide)
        (by decide) succeeds
    · cases taken with
      | none => exact absurd (scale.symm.trans (stays rfl)) (by decide)
      | some adjustment =>
          obtain ⟨_, _, -, -, -, within, -, even, -⟩ := moves adjustment rfl
          exact ⟨next, succeeds, scale, (within (even (by decide))).2⟩
    · exact absurd (by decide) opens.empty

theorem scale_passes_average :
    ¬ ∀ (pool next : CryptoPool) (operation : Operation) (now : Time) (settlement : Settlement)
      (adjustment : Adjustment), pool.Shaped →
      (∀ price ∈ pool.priceScale ++ (pool.priceOracle ++ pool.lastPrices),
        0 < price ∧ Lanes.Fits price) →
      0 ≤ pool.adjustmentStep → operation.perform pool now = .ok next →
      operation.settle pool now = .ok settlement →
      settlement.repeg now = .ok (some adjustment) →
      MovesToward next.priceOracle pool.priceScale next.priceScale := by
  intro toward
  obtain ⟨next, settlement, adjustment, succeeds, settles, repegged, oracle, scale⟩ :=
    overshootingPair_swap
  have short := toward overshootingPair next _ 600 settlement adjustment ⟨rfl, rfl, rfl⟩ (by decide)
    (by decide) succeeds settles repegged
  rw [oracle, scale] at short
  simp [MovesToward, overshootingPair, samplePair, Between] at short

end CryptoPool
end Amm
