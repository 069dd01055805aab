import Amm.Pool.Crypto.Repeg
import Amm.Proofs.Crypto.Curve
import Amm.Proofs.Time

/-!
What booking a trade can do to a pool. It takes the profit of the unadjusted invariant and then ends
in one of four ways, of which one moves the scale. What all ways have in common is proved here once.
-/

namespace Amm
namespace CryptoPool

open Crypto

/-- A scale that is taken has an invariant of its own, at which a share is worth more than one and
keeps more than half of the profit. -/
theorem adjustment_eq_some {pool : CryptoPool} {shape : Shape} {xp oracle : List Int}
    {deviation profit : Int} {next : Adjustment}
    (taken : pool.adjustment shape xp oracle deviation profit = .ok (some next)) :
    ∃ norm balances, sqrt (deviation.fdiv Fixed.one) = .ok norm ∧
      pool.movedScale norm oracle = .ok next.priceScale ∧
      pool.rescaled xp next.priceScale = .ok balances ∧
      newtonD shape balances = .ok next.d ∧
      shareValue next.d pool.supply next.priceScale = .ok next.virtualPrice ∧
      Fixed.one < next.virtualPrice ∧ profit < next.virtualPrice * 2 - Fixed.one := by
  simp only [adjustment, Priced.bind_eq_ok, Except.ok.injEq] at taken
  obtain ⟨norm, rooted, scale, moved, balances, rescaled, d, solved, value, valued, accepted⟩ := taken
  split at accepted
  · rename_i worth
    obtain rfl := Option.some.inj accepted
    simp only [Bool.and_eq_true, decide_eq_true_eq] at worth
    exact ⟨norm, balances, rooted, moved, rescaled, solved, valued, worth⟩
  · simp at accepted

section
variable {pool : CryptoPool} {d value : Int}

/-- The profit of a pool whose shares have a price grows as their price does. -/
theorem profit_of_value (priced : 0 < pool.virtualPrice)
    (valued : shareValue d pool.supply pool.priceScale = .ok value)
    (allowed : pool.virtualPrice ≤ value ∨ pool.ramp.futureTime ≠ 0) :
    pool.profit d = .ok ⟨(pool.xcpProfit * value).fdiv pool.virtualPrice, value⟩ := by
  have passes : (!(value < pool.virtualPrice && pool.ramp.futureTime = 0)) = true := by
    rcases allowed with above | ramping
    · simp [above]
    · simp [ramping]
  have divided : Priced.quotient (pool.xcpProfit * value) pool.virtualPrice =
      .ok ((pool.xcpProfit * value).fdiv pool.virtualPrice) :=
    Priced.quotient_eq_ok.mpr ⟨priced.ne', rfl⟩
  simp only [profit, if_pos priced, valued, divided, passes, Priced.require, if_true,
    Priced.ok_bind]

theorem profit_of_loss (priced : 0 < pool.virtualPrice)
    (valued : shareValue d pool.supply pool.priceScale = .ok value)
    (below : value < pool.virtualPrice) (settled : pool.ramp.futureTime = 0) :
    pool.profit d = Priced.refuse .loss := by
  have divided : Priced.quotient (pool.xcpProfit * value) pool.virtualPrice =
      .ok ((pool.xcpProfit * value).fdiv pool.virtualPrice) :=
    Priced.quotient_eq_ok.mpr ⟨priced.ne', rfl⟩
  simp only [profit, if_pos priced, valued, divided, below, settled, Priced.require,
    Priced.ok_bind, decide_true, Bool.and_true, Bool.not_true, Bool.false_eq_true, if_false]
  rfl

/-- A profit that was taken is the one of the value of a share, and the value passed the check. -/
theorem profit_eq_ok {taken : Profit} (priced : 0 < pool.virtualPrice)
    (succeeds : pool.profit d = .ok taken) :
    shareValue d pool.supply pool.priceScale = .ok taken.virtualPrice ∧
      taken.xcpProfit = (pool.xcpProfit * taken.virtualPrice).fdiv pool.virtualPrice ∧
      (pool.virtualPrice ≤ taken.virtualPrice ∨ pool.ramp.futureTime ≠ 0) := by
  simp only [profit, if_pos priced, Priced.bind_eq_ok, Priced.quotient_eq_ok,
    Priced.require_eq_ok, Except.ok.injEq] at succeeds
  obtain ⟨value, valued, profit, ⟨-, rfl⟩, _, passes, rfl⟩ := succeeds
  refine ⟨valued, rfl, ?_⟩
  by_cases settled : pool.ramp.futureTime = 0
  · left
    simpa [settled] using passes
  · exact .inr settled

end

namespace Settlement

/-- The ways in which recording a trade ends: the scale is not to move, the moving average is near,
the step of the scale is refused, or it is taken. -/
inductive Exit (settlement : Settlement) (seen : Observation) (profit : Profit) (now : Time) :
    CryptoPool → Prop
  | unwanted (stays : settlement.wantsMove profit = false) :
      Exit settlement seen profit now (settlement.recorded seen profit now)
  | near (deviation : Int) (wants : settlement.wantsMove profit = true)
      (measured : squaredDeviation seen.oracle settlement.pool.priceScale = .ok deviation)
      (close : deviation ≤ settlement.pool.adjustmentStep * settlement.pool.adjustmentStep ∨
        settlement.pool.virtualPrice ≤ 0) :
      Exit settlement seen profit now (settlement.recorded seen profit now)
  | refused (deviation : Int) (wants : settlement.wantsMove profit = true)
      (measured : squaredDeviation seen.oracle settlement.pool.priceScale = .ok deviation)
      (tried : settlement.pool.adjustment settlement.shape settlement.xp seen.oracle deviation
        profit.xcpProfit = .ok none) :
      Exit settlement seen profit now
        { settlement.recorded seen profit now with notAdjusted := false }
  | moved (deviation : Int) (next : Adjustment) (wants : settlement.wantsMove profit = true)
      (measured : squaredDeviation seen.oracle settlement.pool.priceScale = .ok deviation)
      (taken : settlement.pool.adjustment settlement.shape settlement.xp seen.oracle deviation
        profit.xcpProfit = .ok (some next)) :
      Exit settlement seen profit now
        { settlement.recorded seen profit now with
          priceScale := settlement.pool.layout.kept next.priceScale
          d := next.d
          virtualPrice := next.virtualPrice }

/-- The step of the scale that is taken for an observation and a profit, if one is. -/
def step (settlement : Settlement) (seen : Observation) (profit : Profit) :
    Priced (Option Adjustment) := do
  if settlement.wantsMove profit then
    let pool := settlement.pool
    let deviation ← squaredDeviation seen.oracle pool.priceScale
    if deviation ≤ pool.adjustmentStep * pool.adjustmentStep || pool.virtualPrice ≤ 0 then .ok none
    else
      pool.adjustment settlement.shape settlement.xp seen.oracle deviation profit.xcpProfit
  else .ok none

/-- The step of the scale that booking a trade takes, if it takes one. -/
def repeg (settlement : Settlement) (now : Time) : Priced (Option Adjustment) := do
  let seen ← settlement.observe now
  let profit ← settlement.pool.profit seen.d
  settlement.step seen profit

/-- A pool after a booking that took the given step. The step brings an invariant and a value of its
own. Without one the scale stays as it was, with the unadjusted invariant and value. -/
inductive Records (settlement : Settlement) (seen : Observation) (profit : Profit) (now : Time) :
    Option Adjustment → CryptoPool → Prop
  | stays (notAdjusted : Bool) :
      Records settlement seen profit now none
        { settlement.recorded seen profit now with notAdjusted }
  | moves (deviation : Int) (adjustment : Adjustment) (wants : settlement.wantsMove profit = true)
      (taken : settlement.pool.adjustment settlement.shape settlement.xp seen.oracle deviation
        profit.xcpProfit = .ok (some adjustment)) :
      Records settlement seen profit now (some adjustment)
        { settlement.recorded seen profit now with
          priceScale := settlement.pool.layout.kept adjustment.priceScale
          d := adjustment.d
          virtualPrice := adjustment.virtualPrice }

variable {settlement : Settlement} {seen : Observation} {profit : Profit} {now : Time}
  {next : CryptoPool}

/-- A record comes apart in one way: into its exit, and into the step of the scale that it takes or
not. -/
theorem record_eq_ok (records : settlement.record seen profit now = .ok next) :
    Exit settlement seen profit now next ∧
      ∃ taken, settlement.step seen profit = .ok taken ∧
        Records settlement seen profit now taken next := by
  unfold record at records
  cases wants : settlement.wantsMove profit with
  | false =>
      obtain rfl : settlement.recorded seen profit now = next := by simpa [wants] using records
      refine ⟨.unwanted wants, none, ?_, .stays (settlement.wantsMove profit)⟩
      simp [step, wants]
  | true =>
      simp only [wants, Bool.not_true, Bool.false_eq_true, if_false, Priced.bind_eq_ok] at records
      obtain ⟨deviation, measured, rest⟩ := records
      simp only [step, wants, if_true, measured, Priced.ok_bind]
      split at rest
      · rename_i near
        obtain rfl := Except.ok.inj rest
        refine ⟨.near deviation wants measured (by simpa using near), none, ?_,
          .stays (settlement.wantsMove profit)⟩
        rw [if_pos near]
      · rename_i far
        obtain ⟨tried, adjusted, same⟩ := Priced.bind_eq_ok.mp rest
        rw [if_neg far, adjusted]
        cases tried with
        | none =>
            obtain rfl := Except.ok.inj same
            exact ⟨.refused deviation wants measured adjusted, none, rfl, .stays false⟩
        | some adjustment =>
            obtain rfl := Except.ok.inj same
            exact ⟨.moved deviation adjustment wants measured adjusted, some adjustment, rfl,
              .moves deviation adjustment wants adjusted⟩

theorem exit_of_record (records : settlement.record seen profit now = .ok next) :
    Exit settlement seen profit now next :=
  (record_eq_ok records).1

/-- A booking moves the ramp, the invariant, the prices and the profit, and nothing else. -/
theorem Exit.frame (ends : Exit settlement seen profit now next) :
    next = { settlement.pool with
      ramp := next.ramp
      d := next.d
      priceScale := next.priceScale
      priceOracle := next.priceOracle
      lastPrices := next.lastPrices
      lastPricesTime := next.lastPricesTime
      xcpProfit := next.xcpProfit
      virtualPrice := next.virtualPrice
      notAdjusted := next.notAdjusted } := by
  cases ends <;> rfl

theorem Exit.reserves_eq (ends : Exit settlement seen profit now next) :
    next.reserves = settlement.pool.reserves := by
  rw [ends.frame]

theorem Exit.xcpProfit_eq (ends : Exit settlement seen profit now next) :
    next.xcpProfit = profit.xcpProfit := by
  cases ends <;> rfl

theorem Exit.ramp_eq (ends : Exit settlement seen profit now next) :
    next.ramp = (settlement.recorded seen profit now).ramp := by
  cases ends <;> rfl

theorem Exit.lastPrices_eq (ends : Exit settlement seen profit now next) :
    next.lastPrices = settlement.pool.layout.kept seen.last := by
  cases ends <;> rfl

theorem Exit.lastPricesTime_eq (ends : Exit settlement seen profit now next) :
    next.lastPricesTime = max settlement.pool.lastPricesTime now := by
  cases ends <;> rfl

theorem Exit.priceOracle_eq (ends : Exit settlement seen profit now next) :
    next.priceOracle =
      if settlement.pool.lastPricesTime < now then settlement.pool.layout.kept seen.oracle
      else settlement.pool.priceOracle := by
  cases ends <;> rfl

theorem Exit.virtualPrice_pos (ends : Exit settlement seen profit now next)
    (positive : 0 < profit.virtualPrice) : 0 < next.virtualPrice := by
  cases ends with
  | unwanted | near | refused => exact positive
  | moved deviation adjusted wants measured taken =>
      obtain ⟨_, _, -, -, -, -, -, worth, -⟩ := adjustment_eq_some taken
      exact lt_trans (by decide) worth

theorem Exit.d_pos (ends : Exit settlement seen profit now next) (positive : 0 < seen.d) :
    0 < next.d := by
  cases ends with
  | unwanted | near | refused => exact positive
  | moved deviation adjusted wants measured taken =>
      obtain ⟨_, _, -, -, -, solved, -⟩ := adjustment_eq_some taken
      exact newtonD_pos solved

theorem observe_eq_ok (observed : settlement.observe now = .ok seen) :
    settlement.pool.oracleAt now = .ok seen.oracle ∧ settlement.unadjustedD = .ok seen.d ∧
      settlement.pool.nextPrices settlement.shape settlement.xp seen.d settlement.trade =
        .ok seen.last := by
  simp only [observe, Priced.bind_eq_ok, Except.ok.injEq] at observed
  obtain ⟨oracle, averaged, d, solved, last, priced, rfl⟩ := observed
  exact ⟨averaged, solved, priced⟩

/-- The invariant that a trade is read at is positive if the one that came with it is. -/
theorem observe_d_pos (known : ∀ d, settlement.knownD = some d → 0 < d)
    (observed : settlement.observe now = .ok seen) : 0 < seen.d := by
  obtain ⟨-, solved, -⟩ := observe_eq_ok observed
  cases given : settlement.knownD with
  | none =>
      simp only [unadjustedD, given] at solved
      exact newtonD_pos solved
  | some d =>
      simp only [unadjustedD, given, Except.ok.injEq] at solved
      exact solved ▸ known d given

/-- Every booking is an observation, a profit and one of the exits. -/
theorem book_eq_ok (books : settlement.book now = .ok next) :
    ∃ seen profit, settlement.observe now = .ok seen ∧
      settlement.pool.profit seen.d = .ok profit ∧ Exit settlement seen profit now next := by
  simp only [book, Priced.bind_eq_ok] at books
  obtain ⟨seen, observed, profit, earned, records⟩ := books
  exact ⟨seen, profit, observed, earned, exit_of_record records⟩

/-- Every booking is an observation, a profit and a step of the scale that is taken or not. -/
theorem records_of_book (books : settlement.book now = .ok next) :
    ∃ seen profit taken, settlement.observe now = .ok seen ∧
      settlement.pool.profit seen.d = .ok profit ∧ settlement.repeg now = .ok taken ∧
      Records settlement seen profit now taken next := by
  simp only [book, Priced.bind_eq_ok] at books
  obtain ⟨seen, observed, profit, earned, recorded⟩ := books
  obtain ⟨-, taken, stepped, records⟩ := record_eq_ok recorded
  refine ⟨seen, profit, taken, observed, earned, ?_, records⟩
  simp only [repeg, observed, earned, stepped, Priced.ok_bind]

end Settlement

section
open Priced

/-! Of all steps of a booking only the check of the profit ends in the loss. -/

variable {pool : CryptoPool} {shape : Shape} {xp : List Int} {now : Time}

theorem oracleAt_avoids_loss : Avoids .loss (pool.oracleAt now) := by
  unfold oracleAt
  split
  · exact .bind Time.since_avoids fun elapsed => .bind (.quotient (by decide)) fun power =>
      .bind halfpow_avoids_loss fun _ => .value _
  · exact .value _

theorem nextPrices_avoids_loss {d : Int} {trade : Option TradePrice} :
    Avoids .loss (pool.nextPrices shape xp d trade) := by
  have marginal : Avoids .loss (pool.marginalPrices shape xp d) := by
    refine .bind .entry fun balance => .mapM (fun (scale, k) => ?_) _
    exact .bind newtonY_avoids_loss fun y => .bind .entry fun before => .quotient (by decide)
  have traded : ∀ trade, Avoids .loss (pool.tradedPrices trade) := by
    intro trade
    unfold tradedPrices
    split
    · exact .mapM (fun last => .quotient (by decide)) _
    · exact .modify
  unfold nextPrices
  split
  · split
    · exact traded _
    · exact marginal
  · exact marginal

theorem shareValue_avoids_loss {d supply : Int} {prices : List Int} :
    Avoids .loss (shareValue d supply prices) := by
  refine .bind (.bind (.mapM (fun price => .quotient (by decide)) _) fun _ => ?_) fun mean =>
    .quotient (by decide)
  exact geometricMean_avoids_loss

theorem profit_eq_loss {d : Int} (priced : 0 < pool.virtualPrice) :
    pool.profit d = refuse .loss ↔
      ∃ value, shareValue d pool.supply pool.priceScale = .ok value ∧
        value < pool.virtualPrice ∧ pool.ramp.futureTime = 0 := by
  constructor
  · intro lost
    simp only [profit, if_pos priced] at lost
    obtain ⟨value, valued, lost⟩ := (Avoids.bind_eq_refuse shareValue_avoids_loss).mp lost
    refine ⟨value, valued, ?_⟩
    by_contra allowed
    have kept := profit_of_value priced valued ((not_and_or.mp allowed).imp_left not_lt.mp)
    simp only [profit, if_pos priced, valued, ok_bind, lost] at kept
    exact refuse_ne_ok _ _ kept
  · intro ⟨value, valued, below, settled⟩
    exact profit_of_loss priced valued below settled

theorem adjustment_avoids_loss {oracle : List Int} {deviation profit : Int} :
    Avoids .loss (pool.adjustment shape xp oracle deviation profit) := by
  refine .bind sqrt_avoids_loss fun norm => .bind ?_ fun scale => .bind ?_ fun balances => ?_
  · exact .mapM (fun _ => .quotient (by decide)) _
  · exact .bind .entry fun _ => .bind (.mapM (fun _ => .quotient (by decide)) _) fun _ => .value _
  · exact .bind newtonD_avoids_loss fun d => .bind shareValue_avoids_loss fun value => .value _

namespace Settlement

variable {settlement : Settlement}

theorem observe_avoids_loss : Avoids .loss (settlement.observe now) := by
  refine .bind oracleAt_avoids_loss fun oracle => .bind ?_ fun d => ?_
  · unfold unadjustedD
    split
    · exact .value _
    · exact newtonD_avoids_loss
  · exact .bind nextPrices_avoids_loss fun last => .value _

theorem record_avoids_loss {seen : Observation} {profit : Profit} :
    Avoids .loss (settlement.record seen profit now) := by
  unfold record
  dsimp only
  split
  · exact .value _
  · refine .bind (.bind (.mapM (fun _ => .quotient (by decide)) _) fun _ => .value _) fun _ => ?_
    split
    · exact .value _
    · refine .bind adjustment_avoids_loss fun tried => ?_
      cases tried with
      | none => exact .value _
      | some adjustment => exact .value _

/-- A booking fails with the loss for the check of the profit alone. -/
theorem book_eq_loss (priced : 0 < settlement.pool.virtualPrice) :
    settlement.book now = refuse .loss ↔
      ∃ seen value, settlement.observe now = .ok seen ∧
        shareValue seen.d settlement.pool.supply settlement.pool.priceScale = .ok value ∧
        value < settlement.pool.virtualPrice ∧ settlement.pool.ramp.futureTime = 0 := by
  rw [book, Avoids.bind_eq_refuse observe_avoids_loss]
  refine exists_congr fun seen => ?_
  rw [Avoids.bind_eq_refuse_first fun _ => record_avoids_loss, profit_eq_loss priced,
    exists_and_left]

end Settlement

end

end CryptoPool
end Amm
